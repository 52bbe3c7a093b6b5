import Mathlib
import ConfigLang.Proofs.Parse.Grammar

/-!
# Precedence climbing gives the tree of the table

A row of operators is a list of symbols: atoms, prefix operators and infix operators.
A tree over a row is `Shaped` if it groups the row as the table of powers says, where
powers alone group from the right.  There is exactly one shaped tree over a row, and it
is what the parser reads.

## Strategy

* **Existence.**  `OperatorTree.append` puts an infix operator and an operand behind a
  tree, below the operators that bind looser.  It keeps the tree shaped, so
  `ofChain` is a shaped tree over the row.
* **Uniqueness.**  A shaped tree is `ofChain` of its row (`exists_chain`).
* **The parser.**  `Shaped.reads` follows a shaped tree over tokens.  Its left operand
  is read by the loop that goes on behind it, so the statement is about what the loop
  reads from there on.

Two numbers tell what may stand around a tree: no infix operator at its top is weaker
than `floor`, and one behind it takes all of it as left operand if it is weaker than
`ceiling`.
-/

namespace ConfigLang

namespace BinaryOp

theorem one_le_power (op : BinaryOp) : 1 ≤ op.power := by
  cases op <;> decide

theorem power_le (op : BinaryOp) : op.power ≤ 10 := by
  cases op <;> decide

theorem power_le_rightPower (op : BinaryOp) : op.power ≤ op.rightPower := by
  cases op <;> decide

theorem rightPower_le (op : BinaryOp) : op.rightPower ≤ 10 := by
  cases op <;> decide

theorem power_lt {op : BinaryOp} (h : op ≠ pow) : op.power < 10 := by
  cases op <;> first | decide | exact absurd rfl h

theorem eq_pow_of_le {op : BinaryOp} (h : 10 ≤ op.power) : op = pow := by
  by_contra hop
  exact absurd (power_lt hop) (Nat.not_lt.mpr h)

/-- From the left group all operators but powers. -/
theorem rightPower_of_ne {op : BinaryOp} (h : op ≠ pow) : op.rightPower = op.power + 1 := by
  cases op <;> first | rfl | exact absurd rfl h

end BinaryOp

namespace Parse

/-! ## Rows and trees -/

/-- What stands in a row of operators. -/
inductive Symbol where
  | atom (e : Expr)
  | sign (op : UnaryOp)
  | link (op : BinaryOp)

/-- An atom with the prefix operators in front of it. -/
structure Operand where
  signs : List UnaryOp
  atom : Expr

/-- The symbols of an operand. -/
def Operand.symbols (u : Operand) : List Symbol :=
  u.signs.map .sign ++ [.atom u.atom]

/-- The symbols of operands with infix operators between them. -/
def symbols (first : Operand) : List (BinaryOp × Operand) → List Symbol
  | [] => first.symbols
  | (op, u) :: links => first.symbols ++ .link op :: symbols u links

/-- A tree over a row. Its atoms are whole expressions, a group in parentheses among them. -/
inductive OperatorTree where
  | atom (e : Expr)
  | sign (op : UnaryOp) (operand : OperatorTree)
  | link (op : BinaryOp) (left right : OperatorTree)

namespace OperatorTree

/-- The symbols of a tree in order. -/
def reading : OperatorTree → List Symbol
  | atom e => [.atom e]
  | sign op t => .sign op :: t.reading
  | link op l r => l.reading ++ .link op :: r.reading

/-- The expression that a tree stands for. -/
def toExpr : OperatorTree → Expr
  | atom e => e
  | sign op t => .unary op t.toExpr
  | link op l r => .binary op l.toExpr r.toExpr

/-- The operators of a tree are grouped as the table of powers says. -/
inductive Shaped : OperatorTree → Prop
  | atom (e : Expr) : Shaped (atom e)
  /-- The operand of a prefix operator is an atom, a tree of a prefix operator or a power. -/
  | sign {op : UnaryOp} {t : OperatorTree} (ht : Shaped t)
      (hpower : ∀ op' l r, t = link op' l r → op' = .pow) : Shaped (sign op t)
  /-- An operator that groups from the left has none of less power on its left, and only those of
  greater power on its right. -/
  | link {op : BinaryOp} {l r : OperatorTree} (hop : op.isRightAssociative = false)
      (hl : Shaped l) (hr : Shaped r) (hleft : ∀ op' a b, l = link op' a b → op.power ≤ op'.power)
      (hright : ∀ op' a b, r = link op' a b → op.power < op'.power) : Shaped (link op l r)
  /-- A power has neither an infix nor a prefix operator on its left. -/
  | power {op : BinaryOp} {e : Expr} {r : OperatorTree} (hop : op.isRightAssociative = true)
      (hr : Shaped r) (hright : ∀ op' a b, r = link op' a b → op.power ≤ op'.power) :
      Shaped (link op (.atom e) r)

/-- The least power at the top of a tree. -/
def floor : OperatorTree → Nat
  | link op _ _ => op.power
  | _ => 10

/-- The power that an operator behind a tree stays below if it takes all of the tree. -/
def ceiling : OperatorTree → Nat
  | atom _ => 11
  | sign _ _ => 10
  | link op _ _ => op.rightPower

theorem one_le_floor (t : OperatorTree) : 1 ≤ t.floor := by
  cases t with
  | link op _ _ => exact op.one_le_power
  | _ => simp [floor]

theorem floor_le_ceiling (t : OperatorTree) : t.floor ≤ t.ceiling := by
  cases t with
  | link op _ _ => exact op.power_le_rightPower
  | _ => simp [floor, ceiling]

/-- What the rules of shape come down to. -/
theorem Shaped.link_iff {op : BinaryOp} {l r : OperatorTree} :
    (OperatorTree.link op l r).Shaped ↔ l.Shaped ∧ r.Shaped ∧ op.power ≤ l.floor ∧
      op.power < l.ceiling ∧ op.rightPower ≤ r.floor := by
  constructor
  · intro h
    cases h with
    | link hop hl hr hleft hright =>
        have hne : op ≠ .pow := by rintro rfl; cases hop
        have hten := BinaryOp.power_lt hne
        rw [BinaryOp.rightPower_of_ne hne]
        refine ⟨hl, hr, ?_, ?_, ?_⟩
        · cases l with
          | link op' a b => exact hleft op' a b rfl
          | _ => exact op.power_le
        · cases l with
          | link op' a b =>
              have hle := hleft op' a b rfl
              by_cases hpow : op' = .pow
              · subst hpow
                exact hten
              · rw [ceiling, BinaryOp.rightPower_of_ne hpow]
                omega
          | atom e => exact Nat.lt_succ_of_le op.power_le
          | sign s t => exact hten
        · cases r with
          | link op' a b => exact hright op' a b rfl
          | _ => exact hten
    | @power _ e _ hop hr hright =>
        obtain rfl : op = .pow := by simpa [BinaryOp.isRightAssociative] using hop
        refine ⟨.atom e, hr, Nat.le_refl _, Nat.lt_succ_self 10, ?_⟩
        cases r with
        | link op' a b => exact hright op' a b rfl
        | _ => exact Nat.le_refl _
  · rintro ⟨hl, hr, hfloor, hceiling, hright⟩
    by_cases hpow : op = .pow
    · subst hpow
      cases l with
      | atom e => exact .power rfl hr fun op' a b h => by subst h; exact hright
      | sign s t => exact absurd hceiling (Nat.lt_irrefl 10)
      | link op' a b => exact absurd hceiling (Nat.not_lt.mpr op'.rightPower_le)
    · rw [BinaryOp.rightPower_of_ne hpow] at hright
      exact .link (by cases op <;> first | rfl | exact absurd rfl hpow) hl hr
        (fun op' a b h => by subst h; exact hfloor) fun op' a b h => by subst h; exact hright

theorem Shaped.sign_iff {op : UnaryOp} {t : OperatorTree} :
    (OperatorTree.sign op t).Shaped ↔ t.Shaped ∧ 10 ≤ t.floor := by
  constructor
  · intro h
    cases h with
    | sign ht hpower =>
        refine ⟨ht, ?_⟩
        cases t with
        | link op' l r =>
            obtain rfl := hpower op' l r rfl
            exact Nat.le_refl _
        | _ => exact Nat.le_refl _
  · rintro ⟨ht, hfloor⟩
    exact .sign ht fun op' l r h => by subst h; exact BinaryOp.eq_pow_of_le hfloor

/-! ## A shaped tree over every row -/

/-- The tree of an operand. -/
def ofOperand (u : Operand) : OperatorTree :=
  u.signs.foldr .sign (.atom u.atom)

/-- Puts an infix operator and its right operand behind a tree. -/
def append (op : BinaryOp) (u : Operand) : OperatorTree → OperatorTree
  | atom e => link op (atom e) (ofOperand u)
  | sign s t => if op.power < 10 then link op (sign s t) (ofOperand u) else sign s (t.append op u)
  | link op' l r =>
    if op.power < op'.rightPower then link op (link op' l r) (ofOperand u)
    else link op' l (r.append op u)

/-- The tree over a row. -/
def ofChain (first : Operand) (links : List (BinaryOp × Operand)) : OperatorTree :=
  links.foldl (fun t link => t.append link.1 link.2) (ofOperand first)

theorem reading_ofOperand (u : Operand) : (ofOperand u).reading = u.symbols := by
  obtain ⟨signs, e⟩ := u
  induction signs with
  | nil => rfl
  | cons s signs ih => exact congrArg (Symbol.sign s :: ·) ih

theorem floor_ofOperand (u : Operand) : (ofOperand u).floor = 10 := by
  obtain ⟨signs, e⟩ := u
  cases signs <;> rfl

theorem shaped_ofOperand (u : Operand) : (ofOperand u).Shaped := by
  obtain ⟨signs, e⟩ := u
  induction signs with
  | nil => exact .atom e
  | cons s signs ih => exact Shaped.sign_iff.mpr ⟨ih, (floor_ofOperand ⟨signs, e⟩).ge⟩

theorem append_of_lt {op : BinaryOp} {t : OperatorTree} (u : Operand) (h : op.power < t.ceiling) :
    t.append op u = link op t (ofOperand u) := by
  cases t with
  | atom e => rfl
  | sign s t => exact if_pos h
  | link op' l r => exact if_pos h

theorem reading_append (op : BinaryOp) (u : Operand) (t : OperatorTree) :
    (t.append op u).reading = t.reading ++ .link op :: u.symbols := by
  induction t with
  | atom e => simp only [append, reading, reading_ofOperand]
  | sign s t ih =>
      rw [append]
      split
      · simp only [reading, reading_ofOperand]
      · simp only [reading, ih, List.cons_append]
  | link op' l r _ ih =>
      rw [append]
      split
      · simp only [reading, reading_ofOperand]
      · simp only [reading, ih, List.append_assoc, List.cons_append]

theorem floor_append (op : BinaryOp) (u : Operand) (t : OperatorTree) :
    (t.append op u).floor = min op.power t.floor := by
  have hop := op.power_le
  cases t with
  | atom e => exact (Nat.min_eq_left hop).symm
  | sign s t =>
      rw [append]
      split
      · exact (Nat.min_eq_left hop).symm
      · rename_i h
        exact (Nat.min_eq_right (Nat.not_lt.mp h)).symm
  | link op' l r =>
      have hright := op'.power_le_rightPower
      rw [append]
      split
      · rename_i h
        refine (Nat.min_eq_left ?_).symm
        -- below the right operands of `op'` are its own power and all weaker ones
        by_cases hpow : op' = .pow
        · subst hpow
          exact op.power_le
        · rw [BinaryOp.rightPower_of_ne hpow] at h
          exact Nat.le_of_lt_succ h
      · rename_i h
        exact (Nat.min_eq_right (by rw [floor]; omega)).symm

theorem shaped_append {t : OperatorTree} (h : t.Shaped) (op : BinaryOp) (u : Operand) :
    (t.append op u).Shaped := by
  have hnew {t : OperatorTree} (ht : t.Shaped) (hceiling : op.power < t.ceiling)
      (hfloor : op.power ≤ t.floor) : (link op t (ofOperand u)).Shaped :=
    Shaped.link_iff.mpr ⟨ht, shaped_ofOperand u, hfloor, hceiling,
      (floor_ofOperand u).symm ▸ op.rightPower_le⟩
  induction t with
  | atom e => exact hnew h (Nat.lt_succ_of_le op.power_le) op.power_le
  | sign s t ih =>
      rw [append]
      split
      · exact hnew h (by assumption) op.power_le
      · rename_i hpow
        obtain ⟨ht, hfloor⟩ := Shaped.sign_iff.mp h
        refine Shaped.sign_iff.mpr ⟨ih ht, ?_⟩
        rw [floor_append]
        omega
  | link op' l r _ ih =>
      have hfloor := floor_append op u (link op' l r)
      rw [append] at hfloor ⊢
      split at hfloor
      · rename_i hlt
        rw [if_pos hlt]
        exact hnew h hlt (by rw [floor] at hfloor; omega)
      · rename_i hge
        rw [if_neg hge]
        obtain ⟨hl, hr, hleft, hceiling, hright⟩ := Shaped.link_iff.mp h
        refine Shaped.link_iff.mpr ⟨hl, ih hr, hleft, hceiling, ?_⟩
        rw [floor_append]
        omega

theorem ofChain_append (first : Operand) (links more : List (BinaryOp × Operand)) :
    ofChain first (links ++ more) =
      more.foldl (fun t link => t.append link.1 link.2) (ofChain first links) :=
  List.foldl_append

theorem symbols_concat (first : Operand) (links : List (BinaryOp × Operand)) (op : BinaryOp)
    (u : Operand) : symbols first (links ++ [(op, u)]) =
      symbols first links ++ .link op :: u.symbols := by
  induction links generalizing first with
  | nil => rfl
  | cons link links ih =>
      rw [List.cons_append, symbols, ih, symbols, List.append_assoc, List.cons_append]

theorem reading_ofChain (first : Operand) (links : List (BinaryOp × Operand)) :
    (ofChain first links).reading = symbols first links := by
  induction links using List.reverseRecOn with
  | nil => exact reading_ofOperand first
  | append_singleton links link ih =>
      rw [ofChain_append, List.foldl_cons, List.foldl_nil, reading_append, ih, symbols_concat]

theorem shaped_ofChain (first : Operand) (links : List (BinaryOp × Operand)) :
    (ofChain first links).Shaped := by
  induction links using List.reverseRecOn with
  | nil => exact shaped_ofOperand first
  | append_singleton links link ih =>
      rw [ofChain_append]
      exact shaped_append ih link.1 link.2

/-! ## There is no other -/

/-- An operator at least as strong as the right operands of `op` goes into the right operand. -/
theorem foldl_append_link {op : BinaryOp} (l r : OperatorTree) {links : List (BinaryOp × Operand)}
    (h : ∀ link ∈ links, op.rightPower ≤ link.1.power) :
    links.foldl (fun t link => t.append link.1 link.2) (link op l r) =
      link op l (links.foldl (fun t link => t.append link.1 link.2) r) := by
  induction links generalizing r with
  | nil => rfl
  | cons new links ih =>
      obtain ⟨hnew, hlinks⟩ := List.forall_mem_cons.mp h
      rw [List.foldl_cons, append, if_neg (Nat.not_lt.mpr hnew), ih _ hlinks]
      rfl

theorem foldl_append_sign (s : UnaryOp) (t : OperatorTree) {links : List (BinaryOp × Operand)}
    (h : ∀ link ∈ links, 10 ≤ link.1.power) :
    links.foldl (fun t link => t.append link.1 link.2) (sign s t) =
      sign s (links.foldl (fun t link => t.append link.1 link.2) t) := by
  induction links generalizing t with
  | nil => rfl
  | cons new links ih =>
      obtain ⟨hnew, hlinks⟩ := List.forall_mem_cons.mp h
      rw [List.foldl_cons, append, if_neg (Nat.not_lt.mpr hnew), ih _ hlinks]
      rfl

theorem symbols_append (first u : Operand) (links more : List (BinaryOp × Operand))
    (op : BinaryOp) : symbols first (links ++ (op, u) :: more) =
      symbols first links ++ .link op :: symbols u more := by
  induction links generalizing first with
  | nil => rfl
  | cons link links ih => simp only [List.cons_append, symbols, ih, List.append_assoc]

/-- **A shaped tree is the tree over its row**, and no operator in it is weaker than its floor. -/
theorem exists_chain {t : OperatorTree} (h : t.Shaped) :
    ∃ first links, t = ofChain first links ∧ t.reading = symbols first links ∧
      ∀ link ∈ links, t.floor ≤ link.1.power := by
  induction t with
  | atom e => exact ⟨⟨[], e⟩, [], rfl, rfl, List.forall_mem_nil _⟩
  | sign s t ih =>
      obtain ⟨ht, hfloor⟩ := Shaped.sign_iff.mp h
      obtain ⟨⟨signs, e⟩, links, htree, hreading, hlinks⟩ := ih ht
      have hten : ∀ link ∈ links, 10 ≤ link.1.power :=
        fun link hmem => hfloor.trans (hlinks link hmem)
      refine ⟨⟨s :: signs, e⟩, links, ?_, ?_, hten⟩
      · rw [htree]
        exact (foldl_append_sign s (ofOperand ⟨signs, e⟩) hten).symm
      · rw [reading, hreading]
        cases links <;> rfl
  | link op l r ihl ihr =>
      obtain ⟨hl, hr, hleft, hceiling, hright⟩ := Shaped.link_iff.mp h
      obtain ⟨first, links, hltree, hlreading, hllinks⟩ := ihl hl
      obtain ⟨u, more, hrtree, hrreading, hrlinks⟩ := ihr hr
      have hmore : ∀ link ∈ more, op.rightPower ≤ link.1.power :=
        fun link hmem => hright.trans (hrlinks link hmem)
      refine ⟨first, links ++ (op, u) :: more, ?_, ?_, ?_⟩
      · rw [ofChain_append, List.foldl_cons, ← hltree, append_of_lt u hceiling,
          foldl_append_link l (ofOperand u) hmore, hrtree]
        rfl
      · rw [reading, hlreading, hrreading, symbols_append]
      · intro new hmem
        rw [floor]
        rcases List.mem_append.mp hmem with hmem | hmem
        · exact hleft.trans (hllinks new hmem)
        · rcases List.mem_cons.mp hmem with rfl | hmem
          · exact Nat.le_refl _
          · exact op.power_le_rightPower.trans (hmore new hmem)

end OperatorTree

theorem Operand.symbols_append_inj {u u' : Operand} {xs ys : List Symbol}
    (h : u.symbols ++ xs = u'.symbols ++ ys) : u = u' ∧ xs = ys := by
  obtain ⟨signs, e⟩ := u
  obtain ⟨signs', e'⟩ := u'
  induction signs generalizing signs' with
  | nil =>
      cases signs' with
      | nil =>
          obtain ⟨hatom, hrest⟩ := List.cons.inj h
          cases hatom
          exact ⟨rfl, hrest⟩
      | cons s signs' => cases (List.cons.inj h).1
  | cons s signs ih =>
      cases signs' with
      | nil => cases (List.cons.inj h).1
      | cons s' signs' =>
          obtain ⟨hsign, hrest⟩ := List.cons.inj h
          cases hsign
          obtain ⟨hu, hxs⟩ := ih signs' hrest
          cases hu
          exact ⟨rfl, hxs⟩

/-- A row has one division into operands and operators. -/
theorem symbols_inj {first first' : Operand} {links links' : List (BinaryOp × Operand)}
    (h : symbols first links = symbols first' links') : first = first' ∧ links = links' := by
  induction links generalizing first first' links' with
  | nil =>
      cases links' with
      | nil =>
          have happend : first.symbols ++ [] = first'.symbols ++ [] := by
            rw [List.append_nil, List.append_nil]
            exact h
          exact ⟨(Operand.symbols_append_inj happend).1, rfl⟩
      | cons link links' =>
          have happend : first.symbols ++ [] = symbols first' (link :: links') := by
            rw [List.append_nil]
            exact h
          cases (Operand.symbols_append_inj happend).2
  | cons link links ih =>
      cases links' with
      | nil =>
          have happend : symbols first (link :: links) = first'.symbols ++ [] := by
            rw [List.append_nil]
            exact h
          cases (Operand.symbols_append_inj happend).2
      | cons link' links' =>
          obtain ⟨hfirst, hrest⟩ := Operand.symbols_append_inj h
          obtain ⟨hop, hrest⟩ := List.cons.inj hrest
          obtain ⟨hu, hlinks⟩ := ih hrest
          obtain ⟨op, u⟩ := link
          obtain ⟨op', u'⟩ := link'
          cases hop
          cases hu
          exact ⟨hfirst, congrArg ((op, u) :: ·) hlinks⟩

theorem OperatorTree.Shaped.eq_ofChain {t : OperatorTree} (h : t.Shaped) {first : Operand}
    {links : List (BinaryOp × Operand)} (hreading : t.reading = symbols first links) :
    t = ofChain first links := by
  obtain ⟨first', links', htree, hreading', -⟩ := exists_chain h
  obtain ⟨hfirst, hlinks⟩ := symbols_inj (hreading.symm.trans hreading')
  rw [htree, hfirst, hlinks]

/-! ## The parser reads the shaped tree -/

/-- `Spells stop input row rest` says that the tokens at the front of `input` are a row of symbols,
and that `rest` is behind them. An atom is a primary expression with its indexes; the line may end
behind an infix operator. -/
inductive Spells (stop : Position) : List Token → List Symbol → List Token → Prop
  | nil (input : List Token) : Spells stop input [] input
  | atom {input rest : List Token} {row : List Symbol} {target : Parsed Expr input}
      {e : Parsed Expr target.rest} (hprimary : primary stop input = .ok target)
      (hindexes : postfixes stop target.value target.rest = .ok e)
      (h : Spells stop e.rest row rest) : Spells stop input (.atom e.value :: row) rest
  | sign {t : Token} {us rest : List Token} {row : List Symbol} {op : UnaryOp}
      (hop : UnaryOp.ofKind? t.kind = some op) (h : Spells stop us row rest) :
      Spells stop (t :: us) (.sign op :: row) rest
  | link {t : Token} {us rest : List Token} {row : List Symbol} {op : BinaryOp}
      {lines : Parsed Bool us} (hop : BinaryOp.ofKind? t.kind = some op)
      (hlines : skipLines us = .ok lines) (h : Spells stop lines.rest row rest) :
      Spells stop (t :: us) (.link op :: row) rest

variable {stop : Position} {input rest : List Token}

theorem Spells.eq_of_nil (h : Spells stop input [] rest) : rest = input := by
  cases h
  rfl

theorem Spells.of_append {row more : List Symbol} (h : Spells stop input (row ++ more) rest) :
    ∃ mid, Spells stop input row mid ∧ Spells stop mid more rest := by
  induction row generalizing input with
  | nil => exact ⟨input, .nil input, h⟩
  | cons s row ih =>
      cases h with
      | atom hprimary hindexes h =>
          obtain ⟨mid, hrow, hmore⟩ := ih h
          exact ⟨mid, .atom hprimary hindexes hrow, hmore⟩
      | sign hop h =>
          obtain ⟨mid, hrow, hmore⟩ := ih h
          exact ⟨mid, .sign hop hrow, hmore⟩
      | link hop hlines h =>
          obtain ⟨mid, hrow, hmore⟩ := ih h
          exact ⟨mid, .link hop hlines hrow, hmore⟩

/-- A local variable without an index is an atom. -/
theorem Spells.localVar {t : Token} {us : List Token} {row : List Symbol}
    (hkind : t.kind = .localVar) (hus : Legible us) (hindex : front us ≠ .mark .lbracket)
    (h : Spells stop us row rest) :
    Spells stop (t :: us) (.atom (.var .enclosing t.text t.position) :: row) rest := by
  obtain ⟨_, hprimary⟩ := (Reads.localVar hkind hus).parse stop
  obtain ⟨_, hindexes⟩ := (Reads.noIndex hindex).parse stop
  exact .atom hprimary hindexes h

theorem legible_of_ofKind? {kind : Kind} {op : BinaryOp} (h : BinaryOp.ofKind? kind = some op) :
    kind ≠ .invalid := by
  rintro rfl
  cases h

/-- A row that is not empty starts with a token that is not malformed. -/
theorem Spells.legible {s : Symbol} {row : List Symbol} (h : Spells stop input (s :: row) rest) :
    Legible input := by
  cases h with
  | atom hprimary _ _ => exact (reads_primary hprimary).front_ne rfl rfl
  | sign hop _ =>
      intro hkind
      rw [front] at hkind
      rw [hkind] at hop
      cases hop
  | link hop _ _ => exact legible_of_ofKind? hop

theorem OperatorTree.exists_reading (t : OperatorTree) : ∃ s row, t.reading = s :: row := by
  induction t with
  | atom e => exact ⟨_, _, rfl⟩
  | sign s t _ => exact ⟨_, _, rfl⟩
  | link op l r ih _ =>
      obtain ⟨s, row, hreading⟩ := ih
      exact ⟨s, row ++ .link op :: r.reading, by rw [reading, hreading, List.cons_append]⟩

/-- The parser reads a shaped tree, and then whatever its loop reads behind the tree. -/
theorem OperatorTree.Shaped.reads {t : OperatorTree} (h : t.Shaped) {least : Nat}
    {input mid rest : List Token} {e : Expr} (hspells : Spells stop input t.reading mid)
    (hleast : least ≤ t.floor)
    (hmid : ∀ op, BinaryOp.ofKind? (front mid) = some op → op.power < t.ceiling)
    (hbehind : Reads (.operations least t.toExpr) mid e rest) :
    Reads (.operation least) input e rest := by
  induction t generalizing least input mid rest e with
  | atom a =>
      cases hspells with
      | atom hprimary hindexes hnil =>
          obtain rfl := hnil.eq_of_nil
          exact .operation (.operand (reads_primary hprimary) (reads_postfixes hindexes)) hbehind
  | sign s t ih =>
      obtain ⟨ht, hfloor⟩ := Shaped.sign_iff.mp h
      cases hspells with
      | sign hop hspells =>
          obtain ⟨_, _, hcons⟩ := t.exists_reading
          have hus := Spells.legible (hcons ▸ hspells)
          have hceiling := hfloor.trans t.floor_le_ceiling
          have hoperand : Reads (.operation UnaryOp.operandPower) _ t.toExpr mid :=
            ih ht hspells hfloor (fun op hop => (hmid op hop).trans_le hceiling) (.noOperation hmid)
          exact .operation (.prefixed hop hus hoperand) hbehind
  | link op l r ihl ihr =>
      obtain ⟨hl, hr, hfloor, hceiling, hright⟩ := Shaped.link_iff.mp h
      obtain ⟨mid', hleft, hspells⟩ := hspells.of_append
      cases hspells with
      | @link t us _ _ _ lines hop hlines hspells =>
          have hlines := lines_of_skipLines hlines
          obtain ⟨_, _, hcons⟩ := r.exists_reading
          have hus := hlines.legible (Spells.legible (hcons ▸ hspells))
          have hceiling' := hright.trans r.floor_le_ceiling
          have hrightOperand : Reads (.operation op.rightPower) lines.rest r.toExpr mid :=
            ihr hr hspells hright (fun op' hop' => (hmid op' hop').trans_le hceiling')
              (.noOperation hmid)
          refine ihl hl hleft (hleast.trans hfloor) ?_
            (.operations hop hleast hus hlines hrightOperand hbehind)
          intro op' hop'
          cases hop.symm.trans hop'
          exact hceiling

/-- **A row of operators is read as the one shaped tree over it**, if neither an infix operator nor
a choice follows. -/
theorem expression_row {first : Operand} {links : List (BinaryOp × Operand)}
    (hrow : Spells stop input (symbols first links) rest)
    (hop : BinaryOp.ofKind? (front rest) = none) (hquestion : front rest ≠ .mark .question) :
    ∃ tree : OperatorTree, (tree.Shaped ∧ tree.reading = symbols first links) ∧
      (∀ other : OperatorTree, other.Shaped → other.reading = symbols first links →
        other = tree) ∧
      ∃ p, expression stop input = .ok p ∧ p.value = tree.toExpr ∧ p.rest = rest := by
  have hshaped := OperatorTree.shaped_ofChain first links
  have hreading := OperatorTree.reading_ofChain first links
  have hno : ∀ op, BinaryOp.ofKind? (front rest) = some op → False := by
    intro op hop'
    cases hop.symm.trans hop'
  have hoperation := hshaped.reads (hreading ▸ hrow) (OperatorTree.one_le_floor _)
    (fun op hop => (hno op hop).elim) (.noOperation fun op hop => (hno op hop).elim)
  obtain ⟨hs, hparse⟩ := (Reads.expression hoperation (.noChoice hquestion)).parse stop
  exact ⟨OperatorTree.ofChain first links, ⟨hshaped, hreading⟩,
    fun other hother hsame => hother.eq_ofChain hsame, _, hparse, rfl, rfl⟩

/-- In `-$a ** -$b * $c` the signs bind looser than the power and tighter than the product. -/
theorem expression_row_of_signs :
    let minus : Token := ⟨.mark .minus, "-", .start⟩
    let power : Token := ⟨.mark .pow, "**", .start⟩
    let times : Token := ⟨.mark .star, "*", .start⟩
    let var (name : String) : Token := ⟨.localVar, name, .start⟩
    let value (name : String) : Expr := .var .enclosing name .start
    let input := [minus, var "a", power, minus, var "b", times, var "c"]
    Spells .start input
        (symbols ⟨[.neg], value "a"⟩ [(.pow, ⟨[.neg], value "b"⟩), (.mul, ⟨[], value "c"⟩)]) [] ∧
      BinaryOp.ofKind? (front []) = none ∧ front [] ≠ .mark .question ∧
      ∃ p, expression .start input = .ok p ∧ p.rest = [] ∧
        p.value = .binary .mul
          (.unary .neg (.binary .pow (value "a") (.unary .neg (value "b")))) (value "c") := by
  intro minus power times var value input
  have hrow : Spells .start input
      (symbols ⟨[.neg], value "a"⟩ [(.pow, ⟨[.neg], value "b"⟩), (.mul, ⟨[], value "c"⟩)]) [] := by
    refine .sign rfl (.localVar rfl nofun nofun ?_)
    refine .link rfl rfl (.sign rfl (.localVar rfl nofun nofun ?_))
    exact .link rfl rfl (.localVar rfl nofun nofun (.nil _))
  obtain ⟨tree, -, hunique, p, hparse, hvalue, hrest⟩ := expression_row hrow rfl nofun
  let expected : OperatorTree := .link .mul (.sign .neg (.link .pow (.atom (value "a"))
    (.sign .neg (.atom (value "b"))))) (.atom (value "c"))
  have hshaped : expected.Shaped :=
    .link rfl (.sign (.power rfl (.sign (.atom _) nofun) nofun) fun _ _ _ h => by cases h; rfl)
      (.atom _) nofun nofun
  refine ⟨hrow, rfl, nofun, p, hparse, hrest, ?_⟩
  rw [hvalue, ← hunique expected hshaped rfl]
  rfl

end Parse

end ConfigLang
