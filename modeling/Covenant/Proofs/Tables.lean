import Covenant.Source.Table

/-!
# Tables whose keys differ

A table is only ever written through `insert`, so no key occurs twice. That makes
an entry and the value of its key one and the same thing, and a pass over the
entries meets every key once.
-/

namespace Covenant.Table

variable {κ α β : Type} [DecidableEq κ]

theorem mem_of_find? {k : κ} {v : α} {es : List (κ × α)} (h : find? k es = some v) :
    (k, v) ∈ es := by
  induction es with
  | nil => exact absurd h (by simp [find?])
  | cons e es ih =>
      obtain ⟨k₀, v₀⟩ := e
      rw [find?] at h
      split at h
      · next hk =>
          obtain rfl := hk
          obtain rfl := Option.some.inj h
          exact List.mem_cons_self
      · exact List.mem_cons_of_mem _ (ih h)

theorem find?_of_mem {k : κ} {v : α} {es : List (κ × α)} (hn : (es.map (·.1)).Nodup)
    (h : (k, v) ∈ es) : find? k es = some v := by
  induction es with
  | nil => exact absurd h List.not_mem_nil
  | cons e es ih =>
      obtain ⟨k₀, v₀⟩ := e
      obtain ⟨hk₀, hn⟩ := List.nodup_cons.mp hn
      rcases List.mem_cons.mp h with heq | hmem
      · obtain ⟨rfl, rfl⟩ := Prod.mk.inj heq
        simp [find?]
      · have hne : k₀ ≠ k := by
          rintro rfl
          exact hk₀ (List.mem_map.mpr ⟨_, hmem, rfl⟩)
        simp [find?, hne, ih hn hmem]

theorem mem_of_get? {t : Table κ α} {k : κ} {v : α} (h : t.get? k = some v) :
    (k, v) ∈ t.entries :=
  mem_of_find? h

theorem get?_of_mem {t : Table κ α} {k : κ} {v : α} (hn : t.keys.Nodup)
    (h : (k, v) ∈ t.entries) : t.get? k = some v :=
  find?_of_mem hn h

theorem get?_eq_none {t : Table κ α} {k : κ} (h : k ∉ t.keys) : t.get? k = none := by
  cases hg : t.get? k with
  | none => rfl
  | some v => exact absurd (List.mem_map.mpr ⟨_, mem_of_get? hg, rfl⟩) h

/-! ## Writing keeps keys apart -/

theorem keys_put (k : κ) (v : α) (es : List (κ × α)) :
    (put k v es).map (·.1) = if k ∈ es.map (·.1) then es.map (·.1) else es.map (·.1) ++ [k] := by
  induction es with
  | nil => simp [put]
  | cons e es ih =>
      obtain ⟨k₀, v₀⟩ := e
      rw [put]
      split
      · next hk => simp [hk]
      · next hk =>
          have hk' : k ≠ k₀ := fun h => hk h.symm
          simp only [List.map_cons, ih, List.mem_cons, hk', false_or]
          split <;> simp

theorem keys_insert (t : Table κ α) (k : κ) (v : α) :
    (t.insert k v).keys = if k ∈ t.keys then t.keys else t.keys ++ [k] :=
  keys_put k v t.entries

theorem nodup_keys_insert {t : Table κ α} (k : κ) (v : α) (h : t.keys.Nodup) :
    (t.insert k v).keys.Nodup := by
  rw [keys_insert]
  split
  · exact h
  · next hk => exact List.nodup_append.mpr ⟨h, by simp, by rintro a ha b hb rfl; simp_all⟩

theorem nodup_keys_insertAll {t : Table κ α} (es : List (κ × α)) (h : t.keys.Nodup) :
    (t.insertAll es).keys.Nodup := by
  induction es generalizing t with
  | nil => exact h
  | cons e es ih => exact ih (nodup_keys_insert e.1 e.2 h)

omit [DecidableEq κ] in
theorem nodup_keys_empty : (empty : Table κ α).keys.Nodup := List.nodup_nil

theorem put_of_not_mem {k : κ} (v : α) {es : List (κ × α)} (h : k ∉ es.map (·.1)) :
    put k v es = es ++ [(k, v)] := by
  induction es with
  | nil => rfl
  | cons e es ih =>
      obtain ⟨k₀, v₀⟩ := e
      rw [List.map_cons, List.mem_cons, not_or] at h
      rw [put, if_neg (Ne.symm h.1), ih h.2, List.cons_append]

/-- Entries with new keys stand behind those that are there. -/
theorem entries_insertAll {t : Table κ α} {es : List (κ × α)}
    (hn : (t.keys ++ es.map (·.1)).Nodup) : (t.insertAll es).entries = t.entries ++ es := by
  induction es generalizing t with
  | nil => exact (List.append_nil _).symm
  | cons e es ih =>
      obtain ⟨k, v⟩ := e
      have hk : k ∉ t.entries.map (·.1) := by
        intro hmem
        exact (List.nodup_append.mp hn).2.2 k hmem k List.mem_cons_self rfl
      have hput : (t.insert k v).entries = t.entries ++ [(k, v)] := put_of_not_mem v hk
      have hkeys : (t.insert k v).keys = t.keys ++ [k] := by
        rw [keys, hput, List.map_append]
        rfl
      show ((t.insert k v).insertAll es).entries = _
      rw [ih (by rw [hkeys, List.append_assoc]; exact hn), hput, List.append_assoc]
      rfl

theorem entries_ofList {es : List (κ × α)} (hn : (es.map (·.1)).Nodup) :
    (ofList es).entries = es := entries_insertAll hn

/-- What is in a table after an insertion was there before or is what was inserted. -/
theorem get?_insert_cases {t : Table κ α} {k k' : κ} {v w : α}
    (h : (t.insert k v).get? k' = some w) : k' = k ∧ w = v ∨ t.get? k' = some w := by
  rw [get?_insert] at h
  split at h
  · next hk => exact Or.inl ⟨hk.symm, (Option.some.inj h).symm⟩
  · exact Or.inr h

theorem get?_insertAll_cases {t : Table κ α} {es : List (κ × α)} {k : κ} {v : α}
    (h : (t.insertAll es).get? k = some v) : (k, v) ∈ es ∨ t.get? k = some v := by
  induction es generalizing t with
  | nil => exact Or.inr h
  | cons e es ih =>
      rcases ih h with hmem | hget
      · exact Or.inl (List.mem_cons_of_mem _ hmem)
      · rcases get?_insert_cases hget with ⟨rfl, rfl⟩ | hget
        · exact Or.inl List.mem_cons_self
        · exact Or.inr hget

theorem contains_insert (t : Table κ α) (k k' : κ) (v : α) :
    (t.insert k v).contains k' = (decide (k = k') || t.contains k') := by
  rw [contains, contains, get?_insert]
  by_cases h : k = k' <;> simp [h]

theorem get?_insertAll_of_not_mem {t : Table κ α} {es : List (κ × α)} {k : κ}
    (h : k ∉ es.map (·.1)) : (t.insertAll es).get? k = t.get? k := by
  induction es generalizing t with
  | nil => rfl
  | cons e es ih =>
      rw [List.map_cons, List.mem_cons, not_or] at h
      exact (ih h.2).trans (get?_insert_of_ne t (Ne.symm h.1) e.2)

theorem get?_insertAll_of_mem {t : Table κ α} {es : List (κ × α)} {k : κ} {v : α}
    (hn : (es.map (·.1)).Nodup) (h : (k, v) ∈ es) : (t.insertAll es).get? k = some v := by
  induction es generalizing t with
  | nil => exact absurd h List.not_mem_nil
  | cons e es ih =>
      obtain ⟨hfresh, hn⟩ := List.nodup_cons.mp hn
      rcases List.mem_cons.mp h with rfl | h
      · exact (get?_insertAll_of_not_mem hfresh).trans (get?_insert_self t k v)
      · exact ih hn h

/-- A key that is written has one of the values that are written for it. -/
theorem exists_get?_insertAll {t : Table κ α} {es : List (κ × α)} {k : κ} {v : α}
    (h : (k, v) ∈ es) : ∃ w, (t.insertAll es).get? k = some w ∧ (k, w) ∈ es := by
  induction es generalizing t v with
  | nil => exact absurd h List.not_mem_nil
  | cons e es ih =>
      by_cases hk : k ∈ es.map (·.1)
      · obtain ⟨e', he', rfl⟩ := List.mem_map.mp hk
        obtain ⟨w, hw, hmem⟩ := ih (t := t.insert e.1 e.2) he'
        exact ⟨w, hw, List.mem_cons_of_mem _ hmem⟩
      · rcases List.mem_cons.mp h with rfl | h
        · exact ⟨v, (get?_insertAll_of_not_mem hk).trans (get?_insert_self t k v),
            List.mem_cons_self⟩
        · exact absurd (List.mem_map.mpr ⟨_, h, rfl⟩) hk

/-! ## Tables made from others -/

theorem find?_map (g : κ → α → β) (k : κ) (es : List (κ × α)) :
    find? k (es.map fun (k, v) => (k, g k v)) = (find? k es).map (g k) := by
  induction es with
  | nil => rfl
  | cons e es ih =>
      simp only [List.map_cons, find?]
      split
      · next hk => rw [hk, Option.map_some]
      · exact ih

theorem find?_filter {k : κ} {es : List (κ × α)} (hn : (es.map (·.1)).Nodup)
    (p : κ × α → Bool) :
    find? k (es.filter p) = (find? k es).filter fun v => p (k, v) := by
  induction es with
  | nil => rfl
  | cons e es ih =>
      obtain ⟨k₀, v₀⟩ := e
      obtain ⟨hfresh, hn⟩ := List.nodup_cons.mp hn
      by_cases hk : k₀ = k
      · subst hk
        have hnone : find? k₀ es = none := get?_eq_none (t := ⟨es⟩) hfresh
        cases hp : p (k₀, v₀) with
        | true => simp [find?, hp, Option.filter]
        | false => simp [find?, hp, ih hn, hnone, Option.filter]
      · cases hp : p (k₀, v₀) with
        | true => simp [find?, hp, hk, ih hn]
        | false => simp [find?, hp, hk, ih hn]

/-! ## A pass over the entries -/

/-- Where every result of a pass carries the key that it comes from, those of one key are what the
pass made of the value of that key. -/
theorem filter_flatMap_entries {t : Table κ α} (hn : t.keys.Nodup) (k : κ) (f : κ × α → List β)
    (p : β → Bool) (hp : ∀ e ∈ t.entries, e.1 ≠ k → ∀ b ∈ f e, p b = false) :
    (t.entries.flatMap f).filter p = (t.get? k).elim [] fun v => (f (k, v)).filter p := by
  obtain ⟨es⟩ := t
  show _ = (find? k es).elim [] _
  induction es with
  | nil => rfl
  | cons e es ih =>
      obtain ⟨k₀, v₀⟩ := e
      obtain ⟨hfresh, hn⟩ := List.nodup_cons.mp hn
      have ih := ih hn fun e he => hp e (List.mem_cons_of_mem _ he)
      rw [List.flatMap_cons, List.filter_append, find?]
      split
      · next hk =>
          obtain rfl := hk
          have hnone : find? k₀ es = none := get?_eq_none (t := ⟨es⟩) hfresh
          rw [ih, hnone]
          exact List.append_nil _
      · next hk =>
          have hnil : (f (k₀, v₀)).filter p = [] :=
            List.filter_eq_nil_iff.mpr fun b hb => by simp [hp _ List.mem_cons_self hk b hb]
          rw [hnil]
          exact ih

end Covenant.Table
