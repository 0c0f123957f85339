import Ish.Lib.Table

set_option autoImplicit false

/-! # Paths and the blobs they are stored as

A normalized path is a list of names; the root is the empty list. The database stores it as a
blob, each name behind a slash, so that the root is the empty blob. The statement that renames
a directory selects the rows below it by comparing blobs (`fs/fake-db.c`, `path_rename`); that
this comparison finds exactly the paths below the directory is `between_slashes_iff` and
`encode_eq_append_slash`.
-/

namespace Ish.Fakefs

open Option List Ish.Lib

abbrev Blob := List UInt8

def SLASH : UInt8 := 47

/-- The byte after the slash, `'0'`. -/
def AFTER_SLASH : UInt8 := 48

/-- One component of a normalized path. -/
structure Name where
  bytes : List UInt8
  ne_nil : bytes ≠ []
  noSlash : SLASH ∉ bytes
  noNul : 0 ∉ bytes
  notDot : bytes ≠ [46]
  notDotDot : bytes ≠ [46, 46]
deriving DecidableEq

abbrev Path := List Name

def nameA : Name := ⟨[97], by decide, by decide, by decide, by decide, by decide⟩
def nameB : Name := ⟨[98], by decide, by decide, by decide, by decide, by decide⟩

/-- The bytes of the path, without a terminating NUL. -/
def encode (p : Path) : Blob := p.flatMap (fun n => SLASH :: n.bytes)

@[simp] theorem encode_nil : encode [] = [] := rfl

theorem encode_cons (n : Name) (p : Path) : encode (n :: p) = SLASH :: (n.bytes ++ encode p) :=
  flatMap_cons

theorem encode_append (p q : Path) : encode (p ++ q) = encode p ++ encode q :=
  flatMap_append

/-! ## Reading a blob back -/

/-- What can follow a name: nothing, or a slash. -/
def AtSlash (b : Blob) : Prop := ∀ c ∈ b.head?, c = SLASH

theorem atSlash_cons (b : Blob) : AtSlash (SLASH :: b) := by
  intro c hc
  exact (some.inj hc).symm

theorem atSlash_append (p : Path) {b : Blob} (hb : AtSlash b) : AtSlash (encode p ++ b) := by
  cases p with
  | nil => exact hb
  | cons n p =>
    rw [encode_cons]
    exact atSlash_cons _

theorem atSlash_encode (p : Path) : AtSlash (encode p) := by
  rw [← append_nil (encode p)]
  exact atSlash_append p nofun

/-- A name ends where the next slash is. -/
theorem name_cut {a b x y : Blob} (ha : SLASH ∉ a) (hb : SLASH ∉ b) (hx : AtSlash x)
    (hy : AtSlash y) (h : a ++ x = b ++ y) : a = b ∧ x = y := by
  induction a generalizing b with
  | nil =>
    cases b with
    | nil => exact ⟨rfl, h⟩
    | cons c b =>
      have hc : c ∈ x.head? := by
        rw [nil_append] at h
        rw [h]
        rfl
      exact absurd (hx c hc ▸ mem_cons_self) hb
  | cons c a ih =>
    cases b with
    | nil =>
      have hc : c ∈ y.head? := by
        rw [nil_append] at h
        rw [← h]
        rfl
      exact absurd (hy c hc ▸ mem_cons_self) ha
    | cons d b =>
      rw [cons_append, cons_append, cons.injEq] at h
      have hrest := ih (fun hs => ha (mem_cons_of_mem c hs))
        (fun hs => hb (mem_cons_of_mem d hs)) h.2
      exact ⟨by rw [h.1, hrest.1], hrest.2⟩

theorem Name.ext_bytes {m n : Name} (h : m.bytes = n.bytes) : m = n := by
  cases m
  cases n
  cases h
  rfl

theorem encode_injective : Function.Injective encode := by
  intro p
  induction p with
  | nil =>
    intro q h
    cases q with
    | nil => rfl
    | cons n q =>
      rw [encode_cons] at h
      cases h
  | cons m p ih =>
    intro q h
    cases q with
    | nil =>
      rw [encode_cons] at h
      cases h
    | cons n q =>
      rw [encode_cons, encode_cons, cons.injEq] at h
      have hcut := name_cut m.noSlash n.noSlash (atSlash_encode p) (atSlash_encode q) h.2
      rw [Name.ext_bytes hcut.1, ih hcut.2]

/-- A blob that continues another path's with a slash is a path below it. -/
theorem encode_eq_append_slash {s p : Path} {z : Blob} (h : encode p = encode s ++ SLASH :: z) :
    ∃ r, p = s ++ r := by
  induction s generalizing p with
  | nil => exact ⟨p, rfl⟩
  | cons m s ih =>
    cases p with
    | nil => cases h
    | cons n p =>
      rw [encode_cons, encode_cons, cons_append, cons.injEq, append_assoc] at h
      have hcut := name_cut n.noSlash m.noSlash (atSlash_encode p)
        (atSlash_append s (atSlash_cons z)) h.2
      obtain ⟨r, rfl⟩ := ih hcut.2
      exact ⟨r, by rw [Name.ext_bytes hcut.1, cons_append]⟩

/-- Of two paths that a blob continues, one is above the other. -/
theorem prefix_or_prefix_of_encode {p q : Path} {x y : Blob} (hx : AtSlash x) (hy : AtSlash y)
    (h : encode p ++ x = encode q ++ y) : p <+: q ∨ q <+: p := by
  induction p generalizing q with
  | nil => exact .inl List.nil_prefix
  | cons m p ih =>
    cases q with
    | nil => exact .inr List.nil_prefix
    | cons n q =>
      simp only [encode_cons, cons_append, append_assoc, cons.injEq, true_and] at h
      have hcut := name_cut m.noSlash n.noSlash (atSlash_append p hx) (atSlash_append q hy) h
      rw [Name.ext_bytes hcut.1, prefix_cons_inj, prefix_cons_inj]
      exact ih hcut.2

/-! ## The blobs between two slashes -/

/-- **The range of the rename statement.** The blobs from `s/` up to `s0` are those that
continue `s/`. -/
theorem between_slashes_iff (s b : Blob) :
    (s ++ [SLASH] ≤ b ∧ b < s ++ [AFTER_SLASH]) ↔ s ++ [SLASH] <+: b := by
  induction s generalizing b with
  | nil =>
    cases b with
    | nil => decide
    | cons c t =>
      rw [nil_append, nil_append, cons_le_cons_iff, cons_lt_cons_iff, cons_prefix_cons]
      constructor
      · rintro ⟨hlo, hhi⟩
        have hhi' : c < AFTER_SLASH := by
          rcases hhi with h | h
          · exact h
          · exact absurd h.2 (not_lt_nil t)
        rcases hlo with h | h
        · have hlo' := UInt8.lt_iff_toNat_lt.mp h
          have hhi'' := UInt8.lt_iff_toNat_lt.mp hhi'
          have h47 : SLASH.toNat = 47 := rfl
          have h48 : AFTER_SLASH.toNat = 48 := rfl
          omega
        · exact ⟨h.1, List.nil_prefix⟩
      · rintro ⟨rfl, -⟩
        exact ⟨.inr ⟨rfl, nil_le t⟩, .inl (by decide)⟩
  | cons a s ih =>
    cases b with
    | nil =>
      constructor
      · rintro ⟨hlo, -⟩
        exact absurd (le_nil.mp hlo) (cons_ne_nil a _)
      intro h
      exact absurd (prefix_nil.mp h) (cons_ne_nil a _)
    | cons c t =>
      rw [cons_append, cons_append, cons_le_cons_iff, cons_lt_cons_iff, cons_prefix_cons]
      constructor
      · rintro ⟨hlo, hhi⟩
        rcases hlo with hlo | ⟨rfl, hlo⟩
        · rcases hhi with hhi | ⟨rfl, -⟩
          · exact absurd hhi (UInt8.lt_asymm hlo)
          · exact absurd hlo (UInt8.lt_irrefl c)
        rcases hhi with hhi | ⟨-, hhi⟩
        · exact absurd hhi (UInt8.lt_irrefl a)
        · exact ⟨rfl, (ih t).mp ⟨hlo, hhi⟩⟩
      rintro ⟨rfl, h⟩
      have hrange := (ih t).mpr h
      exact ⟨.inr ⟨rfl, hrange.1⟩, .inr ⟨rfl, hrange.2⟩⟩

/-! ## Moving a subtree -/

/-- Where the entry of `q` comes from when the tree at `src` is moved to `dst`. -/
def movedFrom (src dst q : Path) : Option Path :=
  if dst <+: q then some (src ++ q.drop dst.length)
  else if src <+: q then none
  else some q

@[simp] theorem movedFrom_append (src dst r : Path) :
    movedFrom src dst (dst ++ r) = some (src ++ r) := by
  rw [movedFrom, if_pos (prefix_append dst r), drop_left]

theorem movedFrom_dst (src dst : Path) : movedFrom src dst dst = some src := by
  have h := movedFrom_append src dst []
  rwa [append_nil, append_nil] at h

/-- Two paths neither of which is above the other. -/
structure Apart (src dst : Path) : Prop where
  notAbove : ¬ src <+: dst
  notBelow : ¬ dst <+: src

theorem Apart.not_prefix_append {src dst : Path} (h : Apart src dst) (r : Path) :
    ¬ src <+: dst ++ r := by
  intro hp
  rcases prefix_or_prefix_of_prefix hp (prefix_append dst r) with h' | h'
  · exact h.notAbove h'
  · exact h.notBelow h'

/-- Distinct entries of the moved tree come from distinct entries. -/
theorem movedFrom_inj {src dst p q r : Path} (hp : movedFrom src dst p = some r)
    (hq : movedFrom src dst q = some r) : p = q := by
  unfold movedFrom at hp hq
  split at hp
  · rename_i hdp
    obtain ⟨a, rfl⟩ := hdp
    split at hq
    · rename_i hdq
      obtain ⟨b, rfl⟩ := hdq
      have h := (some.inj hp).trans (some.inj hq).symm
      rw [drop_left, drop_left] at h
      rw [append_cancel_left h]
    split at hq
    · cases hq
    rename_i hs
    have h := (some.inj hp).trans (some.inj hq).symm
    exact absurd (h ▸ prefix_append src _) hs
  · split at hp
    · cases hp
    rename_i hs
    split at hq
    · have h := (some.inj hq).trans (some.inj hp).symm
      exact absurd (h ▸ prefix_append src _) hs
    split at hq
    · cases hq
    · exact (some.inj hp).trans (some.inj hq).symm

section Move

variable {κ ν : Type} [DecidableEq κ] {sel : κ → Bool} {f : κ → κ} {e : Path → κ}
  {src dst : Path} {t : Table κ ν}

/-- **Moving a subtree of a table of paths.** The rows at and below `src` are updated to lie at
and below `dst`; nothing is below `dst` itself. -/
theorem lookup_move (he : Function.Injective e) (hsel : ∀ p, sel (e p) ↔ src <+: p)
    (hf : ∀ r, f (e (src ++ r)) = e (dst ++ r)) (hkeys : ∀ k ∈ t, ∃ p, k = e p)
    (hapart : Apart src dst) (hsrc : t.lookup (e src) ≠ none)
    (hdst : ∀ r, r ≠ [] → t.lookup (e (dst ++ r)) = none) (q : Path) :
    (updateOrReplace sel f t).lookup (e q)
      = (movedFrom src dst q).bind (fun p => t.lookup (e p)) := by
  have hrow : ∀ k ∈ t, sel k → ∃ r, k = e (src ++ r) := by
    intro k hk hs
    obtain ⟨p, rfl⟩ := hkeys k hk
    obtain ⟨r, rfl⟩ := (hsel p).mp hs
    exact ⟨r, rfl⟩
  by_cases hq : dst <+: q
  · obtain ⟨r, rfl⟩ := hq
    rw [movedFrom_append, bind_some]
    cases hr : t.lookup (e (src ++ r)) with
    | some v =>
      rw [← hf r]
      refine lookup_updateOrReplace_moved ⟨?_, ?_⟩ hr ((hsel _).mpr (prefix_append src r))
      · intro k hk k' hk' hs hs' heq
        obtain ⟨a, rfl⟩ := hrow k hk hs
        obtain ⟨b, rfl⟩ := hrow k' hk' hs'
        rw [hf, hf] at heq
        rw [append_cancel_left (he heq)]
      intro k hk hs hs'
      obtain ⟨a, rfl⟩ := hrow k hk hs
      rw [hf, hsel] at hs'
      exact absurd hs' (hapart.not_prefix_append a)
    | none =>
      have hne : r ≠ [] := by
        rintro rfl
        rw [append_nil] at hr
        exact hsrc hr
      rw [lookup_updateOrReplace_of_ne, hdst r hne, ite_self]
      intro k hk hs heq
      obtain ⟨a, rfl⟩ := hrow k hk hs
      rw [hf] at heq
      rw [append_cancel_left (he heq)] at hk
      exact absurd hr (fun h => AList.lookup_eq_none.mp h hk)
  · rw [lookup_updateOrReplace_of_ne, movedFrom, if_neg hq]
    · by_cases hs : src <+: q
      · rw [if_pos ((hsel q).mpr hs), if_pos hs, bind_none]
      · rw [if_neg (fun h => hs ((hsel q).mp h)), if_neg hs, bind_some]
    intro k hk hs heq
    obtain ⟨a, rfl⟩ := hrow k hk hs
    rw [hf] at heq
    exact hq (he heq ▸ prefix_append dst a)

end Move

end Ish.Fakefs
