import Mathlib

set_option autoImplicit false

/-! # Keyed tables and the sharing of their values

A table with a primary key is an association list without duplicate keys, Mathlib's `AList`:
`lookup` is a select by key, `insert` an insert-or-replace and `erase` a delete by key. What is not
there is an update of the keys with replacement of the rows in the way, `updateOrReplace`.

Two tables are `Matched` if they have the same keys, and two keys share a value in one exactly when
they share it in the other. Such a pair stays matched when both are read through the same renaming
of keys, and when both get a fresh value under the same key.
-/

namespace Ish.Lib

open Option List Function AList

/-- A table with primary key `κ` and one value `ν` per row. -/
abbrev Table (κ ν : Type) := AList (fun _ : κ => ν)

/-! ## Updating keys -/

section Update

variable {κ ν : Type} [DecidableEq κ]

/-- The rows are visited in order. `done` is the table of the rows visited so far and `deleted`
has the keys that visited rows moved to: a row that is found under one of them was replaced. -/
def updateRows (sel : κ → Bool) (f : κ → κ) :
    Table κ ν → List κ → List (Σ _ : κ, ν) → Table κ ν
  | done, _, [] => done
  | done, deleted, ⟨k, v⟩ :: rest =>
    if k ∈ deleted then updateRows sel f done deleted rest
    else if sel k then updateRows sel f (done.insert (f k) v) (f k :: deleted) rest
    else updateRows sel f (done.insert k v) deleted rest

/-- Move every selected row to the key `f` gives; a row in the way is deleted. -/
def updateOrReplace (sel : κ → Bool) (f : κ → κ) (t : Table κ ν) : Table κ ν :=
  updateRows sel f ∅ [] t.entries

variable {sel : κ → Bool} {f : κ → κ}

/-- **A key that no row moves to** is settled when it is deleted or its row is selected; else it
gets the row still to be visited, if there is one. -/
theorem lookup_updateRows_of_ne {q : κ} (rest : List (Σ _ : κ, ν)) (hkeys : rest.NodupKeys)
    (hf : ∀ k ∈ rest.keys, sel k → f k ≠ q) (done : Table κ ν) (deleted : List κ) :
    (updateRows sel f done deleted rest).lookup q =
      if q ∈ deleted ∨ sel q then done.lookup q else (rest.dlookup q).or (done.lookup q) := by
  induction rest generalizing done deleted with
  | nil => simp [updateRows]
  | cons row rest ih =>
    obtain ⟨k, v⟩ := row
    obtain ⟨hk, hkeys⟩ := nodupKeys_cons.mp hkeys
    have ih := ih hkeys fun k' hk' => hf k' (mem_cons_of_mem k hk')
    have hmoved : sel k → q ≠ f k := fun hsel => (hf k mem_cons_self hsel).symm
    unfold updateRows
    by_cases hq : q = k
    · -- nothing behind the row has the same key
      subst hq
      have hnone : rest.dlookup q = none := dlookup_eq_none.mpr hk
      rw [dlookup_cons_eq]
      split
      · rename_i hdel
        simp [ih, hdel]
      rename_i hdel
      split
      · rename_i hsel
        simp [ih, hsel, lookup_insert_ne (hmoved hsel)]
      rename_i hsel
      simp [ih, hdel, hsel, hnone]
    · rw [dlookup_cons_ne _ _ hq]
      split
      · exact ih done deleted
      split
      · rename_i hsel
        simp [ih, hmoved hsel, lookup_insert_ne (hmoved hsel)]
      · rw [ih, lookup_insert_ne hq]

/-- The rows move apart: no two to one key, and none onto a row that moves itself. -/
structure MovesApart (sel : κ → Bool) (f : κ → κ) (keys : List κ) : Prop where
  inj : ∀ k ∈ keys, ∀ k' ∈ keys, sel k → sel k' → f k = f k' → k = k'
  clear : ∀ k ∈ keys, sel k → sel (f k) → f k = k

omit [DecidableEq κ] in
theorem MovesApart.tail {k : κ} {keys : List κ} (h : MovesApart sel f (k :: keys)) :
    MovesApart sel f keys :=
  ⟨fun a ha b hb => h.inj a (mem_cons_of_mem k ha) b (mem_cons_of_mem k hb),
   fun a ha => h.clear a (mem_cons_of_mem k ha)⟩

theorem lookup_updateRows_moved {p : κ} {v : ν} (rest : List (Σ _ : κ, ν))
    (hkeys : rest.NodupKeys) (hapart : MovesApart sel f rest.keys) (hmem : ⟨p, v⟩ ∈ rest)
    (hsel : sel p) (done : Table κ ν) (deleted : List κ) (hdel : p ∉ deleted) :
    (updateRows sel f done deleted rest).lookup (f p) = some v := by
  induction rest generalizing done deleted with
  | nil => cases hmem
  | cons row rest ih =>
    obtain ⟨k, w⟩ := row
    have hnodup := nodupKeys_cons.mp hkeys
    unfold updateRows
    rcases mem_cons.mp hmem with heq | hmem'
    · obtain ⟨rfl, rfl⟩ : p = k ∧ v = w := by
        cases heq
        exact ⟨rfl, rfl⟩
      rw [if_neg hdel, if_pos hsel, lookup_updateRows_of_ne rest hnodup.2]
      · simp
      intro k' hk' hsel' hf
      have heq' : k' = p := hapart.inj k' (mem_cons_of_mem p hk') p mem_cons_self hsel' hsel hf
      exact hnodup.1 (heq' ▸ hk')
    have hp : p ∈ rest.keys := mem_keys_of_mem hmem'
    split
    · exact ih hnodup.2 hapart.tail hmem' _ _ hdel
    split
    · rename_i hk
      refine ih hnodup.2 hapart.tail hmem' _ _ ?_
      rw [mem_cons, not_or]
      refine ⟨?_, hdel⟩
      -- a selected row is never replaced: what moves onto it would be selected twice
      intro hpk
      have hfix : f k = k := hapart.clear k mem_cons_self hk (hpk ▸ hsel)
      exact hnodup.1 (hfix ▸ hpk ▸ hp)
    · exact ih hnodup.2 hapart.tail hmem' _ _ hdel

variable {t : Table κ ν}

/-- **A selected row arrives.** -/
theorem lookup_updateOrReplace_moved {p : κ} {v : ν} (hapart : MovesApart sel f t.keys)
    (hp : t.lookup p = some v) (hsel : sel p) :
    (updateOrReplace sel f t).lookup (f p) = some v :=
  lookup_updateRows_moved t.entries t.nodupKeys hapart (mem_lookup_iff.mp hp) hsel ∅ []
    (not_mem_nil)

/-- **A key that no row moves to** loses its row if the row is selected, and keeps it if not. -/
theorem lookup_updateOrReplace_of_ne {q : κ} (hf : ∀ k ∈ t, sel k → f k ≠ q) :
    (updateOrReplace sel f t).lookup q = if sel q then none else t.lookup q := by
  have h := lookup_updateRows_of_ne t.entries t.nodupKeys hf ∅ []
  simpa [updateOrReplace, AList.lookup] using h

/-- The row that an insert puts there, or one that was there. -/
theorem Table.of_lookup_insert {k q : κ} {v w : ν} (h : (t.insert k v).lookup q = some w) :
    (q = k ∧ w = v) ∨ t.lookup q = some w := by
  by_cases hq : q = k
  · rw [hq, lookup_insert, some.injEq] at h
    exact .inl ⟨hq, h.symm⟩
  · exact .inr ((lookup_insert_ne hq).symm.trans h)

theorem lookup_updateRows_from {q : κ} {v : ν} (rest : List (Σ _ : κ, ν)) (done : Table κ ν)
    (deleted : List κ) (h : (updateRows sel f done deleted rest).lookup q = some v) :
    done.lookup q = some v ∨ ∃ k, ⟨k, v⟩ ∈ rest ∧ (q = k ∨ sel k ∧ q = f k) := by
  induction rest generalizing done deleted with
  | nil => exact .inl h
  | cons row rest ih =>
    obtain ⟨k, w⟩ := row
    have hlater : (∃ k', ⟨k', v⟩ ∈ rest ∧ (q = k' ∨ sel k' ∧ q = f k')) →
        ∃ k', (⟨k', v⟩ : Σ _ : κ, ν) ∈ ⟨k, w⟩ :: rest ∧ (q = k' ∨ sel k' ∧ q = f k') :=
      fun ⟨k', hk', hq⟩ => ⟨k', mem_cons_of_mem _ hk', hq⟩
    unfold updateRows at h
    split at h
    · exact (ih _ _ h).imp_right hlater
    split at h
    · rename_i hsel
      rcases ih _ _ h with hdone | hrest
      · rcases Table.of_lookup_insert hdone with ⟨hq, rfl⟩ | hdone
        · exact .inr ⟨k, mem_cons_self, .inr ⟨hsel, hq⟩⟩
        · exact .inl hdone
      · exact .inr (hlater hrest)
    rcases ih _ _ h with hdone | hrest
    · rcases Table.of_lookup_insert hdone with ⟨hq, rfl⟩ | hdone
      · exact .inr ⟨k, mem_cons_self, .inl hq⟩
      · exact .inl hdone
    · exact .inr (hlater hrest)

/-- Every row of the result is a row of the table, at its own key or where it moved to. -/
theorem lookup_updateOrReplace_from {q : κ} {v : ν}
    (h : (updateOrReplace sel f t).lookup q = some v) :
    ∃ k, t.lookup k = some v ∧ (q = k ∨ sel k ∧ q = f k) := by
  rcases lookup_updateRows_from t.entries ∅ [] h with hnone | ⟨k, hk, hq⟩
  · cases hnone
  · exact ⟨k, mem_lookup_iff.mpr hk, hq⟩

end Update

/-! ## Fresh values -/

/-- A way to pick a value that is not in use. -/
structure Fresh (ι : Type) where
  /-- The value picked when the values of the list are in use. -/
  pick : List ι → ι
  pick_notMem : ∀ used, pick used ∉ used

/-- The values of a table, one for each row. -/
def Table.values {κ ν : Type} (t : Table κ ν) : List ν := t.entries.map Sigma.snd

theorem Table.mem_values {κ ν : Type} [DecidableEq κ] {t : Table κ ν} {k : κ} {v : ν}
    (h : t.lookup k = some v) : v ∈ t.values :=
  mem_map.mpr ⟨⟨k, v⟩, mem_lookup_iff.mp h, rfl⟩

/-- The only row of a table with one row. -/
theorem Table.of_lookup_insert_empty {κ ν : Type} [DecidableEq κ] {k q : κ} {v w : ν}
    (h : ((∅ : Table κ ν).insert k v).lookup q = some w) : q = k ∧ w = v :=
  (Table.of_lookup_insert h).resolve_right (by simp)

/-! ## Matched tables -/

section Matched

variable {π ρ ι κ : Type}

/-- Two partial maps with the same domain that share their values in the same way. -/
structure Matched (D : π → Option ι) (T : π → Option κ) : Prop where
  dom : ∀ p, D p = none ↔ T p = none
  share : ∀ p q i j a b, D p = some i → D q = some j → T p = some a → T q = some b →
    (i = j ↔ a = b)

/-- Reading both through the same renaming of keys. -/
theorem Matched.reindex {D : π → Option ι} {T : π → Option κ} (h : Matched D T)
    (g : ρ → Option π) : Matched (fun r => (g r).bind D) (fun r => (g r).bind T) := by
  refine ⟨?_, ?_⟩
  · intro r
    cases hr : g r with
    | none => simp
    | some p => simpa [hr] using h.dom p
  intro r s i j a b hDr hDs hTr hTs
  obtain ⟨p, hp, hDp⟩ := bind_eq_some_iff.mp hDr
  obtain ⟨q, hq, hDq⟩ := bind_eq_some_iff.mp hDs
  simp only [hp, hq, bind_some] at hTr hTs
  exact h.share p q i j a b hDp hDq hTr hTs

/-- Where the value of `q` comes from when the row of `x` is deleted. -/
def keptFrom [DecidableEq π] (x q : π) : Option π := if q = x then none else some q

/-- Where the value of `q` comes from when `dst` gets the value of `src`. -/
def linkedFrom [DecidableEq π] (src dst q : π) : Option π := some (if q = dst then src else q)

/-- A fresh value on both sides under the same key. -/
theorem Matched.update [DecidableEq π] {D : π → Option ι} {T : π → Option κ} (h : Matched D T)
    (x : π) {i : ι} {a : κ} (hi : ∀ p, D p ≠ some i) (ha : ∀ p, T p ≠ some a) :
    Matched (update D x (some i)) (update T x (some a)) := by
  refine ⟨?_, ?_⟩
  · intro p
    by_cases hp : p = x
    · subst hp
      simp
    · simpa [update_of_ne hp] using h.dom p
  intro p q i1 i2 a1 a2 hDp hDq hTp hTq
  by_cases hp : p = x <;> by_cases hq : q = x
  · subst hp hq
    simp only [update_self, some.injEq] at hDp hDq hTp hTq
    simp [← hDp, ← hDq, ← hTp, ← hTq]
  · subst hp
    simp only [update_self, update_of_ne hq, some.injEq] at hDp hDq hTp hTq
    subst hDp hTp
    exact ⟨fun he => absurd (he ▸ hDq) (hi q), fun he => absurd (he ▸ hTq) (ha q)⟩
  · subst hq
    simp only [update_self, update_of_ne hp, some.injEq] at hDp hDq hTp hTq
    subst hDq hTq
    exact ⟨fun he => absurd (he ▸ hDp) (hi p), fun he => absurd (he ▸ hTp) (ha p)⟩
  · simp only [update_of_ne hp, update_of_ne hq] at hDp hDq hTp hTq
    exact h.share p q i1 i2 a1 a2 hDp hDq hTp hTq

end Matched

end Ish.Lib
