import Mathlib
import ConfigLang.Keyed

/-!
# Laws of ordered dictionaries

What `put` does is said once in terms of lookup (`get?_put`) and once in terms of
the order of the keys (`keys_put`).  A dictionary is known from both (`ext_get?`).
-/

namespace ConfigLang.Keyed

variable {α : Type} {entries : List (String × α)} {key k : String} {value v : α}

/-! ## Keys -/

theorem keys_append (entries others : List (String × α)) :
    keys (entries ++ others) = keys entries ++ keys others :=
  List.map_append

theorem keys_zip (names : List String) (values : List α) :
    keys (names.zip values) = names.take values.length := by
  induction names generalizing values with
  | nil => simp [keys]
  | cons name names ih =>
      cases values with
      | nil => rfl
      | cons value values => exact congrArg (name :: ·) (ih values)

/-! ## Lookup -/

@[simp] theorem get?_nil : get? ([] : List (String × α)) key = none := rfl

theorem get?_cons (entry : String × α) (entries : List (String × α)) (key : String) :
    get? (entry :: entries) key = if entry.1 = key then some entry.2 else get? entries key := by
  unfold get?
  rw [List.lookup_cons]
  by_cases h : entry.1 = key
  · subst h
    simp
  · rw [if_neg h, beq_false_of_ne (Ne.symm h)]

theorem get?_append (entries others : List (String × α)) (key : String) :
    get? (entries ++ others) key = (get? entries key).or (get? others key) := by
  induction entries with
  | nil => simp
  | cons entry entries ih =>
      rw [List.cons_append, get?_cons, get?_cons, ih]
      split <;> rfl

theorem mem_of_get? (h : get? entries key = some value) : (key, value) ∈ entries := by
  induction entries with
  | nil => simp at h
  | cons entry entries ih =>
      rw [get?_cons] at h
      split at h
      · rename_i hkey
        cases h
        subst hkey
        exact List.mem_cons_self
      · exact List.mem_cons_of_mem _ (ih h)

theorem get?_eq_none : get? entries key = none ↔ key ∉ keys entries := by
  induction entries with
  | nil => simp [keys]
  | cons entry entries ih =>
      rw [get?_cons, keys, List.map_cons, List.mem_cons, not_or, ← keys, ← ih]
      split
      · rename_i hkey
        simp [hkey]
      · rename_i hkey
        simp [Ne.symm hkey]

theorem get?_of_mem (hnodup : (keys entries).Nodup) (h : (key, value) ∈ entries) :
    get? entries key = some value := by
  induction entries with
  | nil => simp at h
  | cons entry entries ih =>
      rw [keys, List.map_cons, List.nodup_cons] at hnodup
      rw [get?_cons]
      rcases List.mem_cons.mp h with rfl | h
      · simp
      · have hne : entry.1 ≠ key := by
          rintro rfl
          exact hnodup.1 (List.mem_map.mpr ⟨_, h, rfl⟩)
        rw [if_neg hne]
        exact ih hnodup.2 h

theorem contains_iff : contains entries key = true ↔ key ∈ keys entries := by
  rw [contains, ← Option.ne_none_iff_isSome, Ne, get?_eq_none, not_not]

/-- The order of distinct keys does not matter. -/
theorem get?_perm {others : List (String × α)} (hnodup : (keys entries).Nodup)
    (hperm : entries.Perm others) (key : String) : get? entries key = get? others key := by
  have hnodup' : (keys others).Nodup := (hperm.map Prod.fst).nodup_iff.mp hnodup
  refine Option.ext fun value => ⟨fun h => ?_, fun h => ?_⟩
  · exact get?_of_mem hnodup' (hperm.mem_iff.mp (mem_of_get? h))
  · exact get?_of_mem hnodup (hperm.mem_iff.mpr (mem_of_get? h))

/-- A dictionary is known from its keys in order and their values. -/
theorem ext_get? {others : List (String × α)} (hkeys : keys entries = keys others)
    (hnodup : (keys entries).Nodup) (hget : ∀ key, get? entries key = get? others key) :
    entries = others := by
  induction entries generalizing others with
  | nil => exact (List.map_eq_nil_iff.mp hkeys.symm).symm
  | cons entry entries ih =>
      cases others with
      | nil => cases hkeys
      | cons other others =>
          obtain ⟨hkey, hrest⟩ := List.cons.inj hkeys
          obtain ⟨hfresh, hnodup⟩ := List.nodup_cons.mp hnodup
          have hhead := hget entry.1
          rw [get?_cons, get?_cons, if_pos rfl, if_pos hkey.symm] at hhead
          have hentry : entry = other := Prod.ext hkey (Option.some.inj hhead)
          have htail : entries = others := by
            apply ih hrest hnodup
            intro key
            by_cases h : entry.1 = key
            · -- the key of the head occurs in neither tail
              subst h
              have hfresh' : entry.1 ∉ keys others := by
                rw [keys, ← hrest]
                exact hfresh
              rw [get?_eq_none.mpr hfresh, get?_eq_none.mpr hfresh']
            · have hkey' := hget key
              rwa [get?_cons, get?_cons, if_neg h, if_neg (hkey ▸ h)] at hkey'
          rw [hentry, htail]

/-- Entries that are left out because of their values are missing, and nothing else is. -/
theorem get?_filter (p : α → Bool) (hnodup : (keys entries).Nodup) :
    get? (entries.filter fun entry => p entry.2) key = (get? entries key).filter p := by
  induction entries with
  | nil => rfl
  | cons entry entries ih =>
      obtain ⟨hfresh, hrest⟩ := List.nodup_cons.mp hnodup
      rw [List.filter_cons, get?_cons]
      by_cases hkey : entry.1 = key
      · -- no later entry has the key
        have hnone : get? entries key = none := get?_eq_none.mpr (hkey ▸ hfresh)
        rw [if_pos hkey]
        split
        · rename_i hp
          rw [get?_cons, if_pos hkey, Option.filter_some_pos hp]
        · rename_i hp
          rw [ih hrest, hnone, Option.filter_some_neg (Bool.eq_false_of_not_eq_true hp)]
          rfl
      · rw [if_neg hkey, ← ih hrest]
        split
        · rw [get?_cons, if_neg hkey]
        · rfl

/-! ## Putting a value -/

theorem get?_put (key : String) (value : α) (entries : List (String × α)) (k : String) :
    get? (put key value entries) k = if k = key then some value else get? entries k := by
  induction entries with
  | nil =>
      rw [put, get?_cons]
      by_cases h : k = key
      · simp [h]
      · simp [h, Ne.symm h]
  | cons entry entries ih =>
      obtain ⟨a, b⟩ := entry
      rw [put]
      split
      · rename_i ha
        subst ha
        rw [get?_cons, get?_cons]
        by_cases h : k = a
        · simp [h]
        · simp [h, Ne.symm h]
      · rename_i ha
        rw [get?_cons, get?_cons, ih]
        by_cases h : k = key
        · subst h
          simp [ha]
        · simp [h]

theorem put_of_not_mem (h : key ∉ keys entries) :
    put key value entries = entries ++ [(key, value)] := by
  induction entries with
  | nil => rfl
  | cons entry entries ih =>
      rw [keys, List.map_cons, List.mem_cons, not_or] at h
      rw [put, if_neg (Ne.symm h.1), ih h.2]
      rfl

theorem put_append_of_mem {others : List (String × α)} (h : key ∈ keys entries) :
    put key value (entries ++ others) = put key value entries ++ others := by
  induction entries with
  | nil => cases h
  | cons entry entries ih =>
      rw [List.cons_append, put, put]
      split
      · rfl
      · rename_i hne
        rcases List.mem_cons.mp h with h | h
        · exact absurd h.symm hne
        · rw [ih h]
          rfl

theorem keys_put (key : String) (value : α) (entries : List (String × α)) :
    keys (put key value entries) =
      if key ∈ keys entries then keys entries else keys entries ++ [key] := by
  induction entries with
  | nil => rfl
  | cons entry entries ih =>
      obtain ⟨a, b⟩ := entry
      rw [put]
      by_cases ha : a = key
      · simp [ha, keys]
      · have hkeys : keys ((a, b) :: put key value entries) = a :: keys (put key value entries) :=
          rfl
        rw [if_neg ha, hkeys, ih]
        by_cases h : key ∈ keys entries
        · simp [keys, show key ∈ entries.map Prod.fst from h]
        · simp [keys, show key ∉ entries.map Prod.fst from h, Ne.symm ha]

theorem nodup_keys_put (hnodup : (keys entries).Nodup) : (keys (put key value entries)).Nodup := by
  rw [keys_put]
  split
  · exact hnodup
  · rename_i h
    exact List.nodup_append.mpr ⟨hnodup, List.nodup_singleton _, by
      rintro a ha b hb rfl
      rw [List.mem_singleton] at hb
      exact h (hb ▸ ha)⟩

theorem mem_put {entry : String × α} (h : entry ∈ put key value entries) :
    entry = (key, value) ∨ entry ∈ entries := by
  induction entries with
  | nil => exact .inl (List.mem_singleton.mp h)
  | cons other entries ih =>
      obtain ⟨a, b⟩ := other
      rw [put] at h
      split at h
      · rename_i ha
        subst ha
        rcases List.mem_cons.mp h with rfl | h
        · exact .inl rfl
        · exact .inr (List.mem_cons_of_mem _ h)
      · rcases List.mem_cons.mp h with rfl | h
        · exact .inr List.mem_cons_self
        · rcases ih h with h | h
          · exact .inl h
          · exact .inr (List.mem_cons_of_mem _ h)

/-- A value is put where its key stands. -/
theorem put_eq_map (hnodup : (keys entries).Nodup) (hmem : key ∈ keys entries) :
    put key value entries = entries.map fun entry =>
      (entry.1, if entry.1 = key then value else entry.2) := by
  induction entries with
  | nil => cases hmem
  | cons entry entries ih =>
      obtain ⟨hfresh, hrest⟩ := List.nodup_cons.mp hnodup
      rw [put, List.map_cons]
      split
      · rename_i hkey
        have hothers : entries = entries.map fun other =>
            (other.1, if other.1 = key then value else other.2) := by
          refine (List.map_id _).symm.trans (List.map_congr_left fun other hother => ?_)
          have hne : other.1 ≠ key := by
            rintro rfl
            exact hfresh (List.mem_map.mpr ⟨other, hother, hkey.symm⟩)
          rw [if_neg hne]
          rfl
        rw [← hothers]
      · rename_i hkey
        rcases List.mem_cons.mp hmem with h | h
        · exact absurd h.symm hkey
        · rw [ih hrest h]

/-! ## Removing a key -/

theorem remove_of_not_mem (h : key ∉ keys entries) : remove key entries = entries := by
  induction entries with
  | nil => rfl
  | cons entry entries ih =>
      rw [keys, List.map_cons, List.mem_cons, not_or] at h
      rw [remove, if_neg (Ne.symm h.1), ih h.2]

end ConfigLang.Keyed
