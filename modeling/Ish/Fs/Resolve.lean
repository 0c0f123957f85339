import Ish.Fs.Bounds

set_option autoImplicit false

/-! # What path normalization returns

On a tree that does not change, the path that `__path_normalize` returns is a list of proper
names with no symbolic link on the way. The invariant of the loop is `Turn.Walked`: the buffer
holds such a path, and every prefix of it that has something behind it may be searched. It
survives `..`, which takes the last name away, and the restart at a link, which begins again
at the root.
-/

namespace Ish.Fs

open Option List Ish.Lib Ish.Fakefs

/-! ## Encoded paths under the scans -/

theorem pathIsNormalizedFrom_name {b : Blob} (hb : SLASH ∉ b) (q : Path) :
    pathIsNormalizedFrom .name (b ++ encode q) = pathIsNormalizedFrom .slash (encode q) := by
  induction b with
  | nil =>
    cases q with
    | nil => rfl
    | cons n q => simp [encode_cons, pathIsNormalizedFrom]
  | cons c b ih =>
    rw [mem_cons, not_or] at hb
    have hc : c ≠ SLASH := fun heq => hb.1 heq.symm
    simp only [cons_append, pathIsNormalizedFrom, if_neg hc]
    exact ih hb.2

theorem pathIsNormalized_encode (q : Path) : pathIsNormalized (encode q) = true := by
  unfold pathIsNormalized
  induction q with
  | nil => rfl
  | cons n q ih =>
    obtain ⟨c, b, hcb⟩ := exists_cons_of_ne_nil n.ne_nil
    have hslash := n.noSlash
    rw [hcb, mem_cons, not_or] at hslash
    have hc : c ≠ SLASH := fun heq => hslash.1 heq.symm
    have hrest := pathIsNormalizedFrom_name hslash.2 q
    rw [ih] at hrest
    simp [encode_cons, hcb, pathIsNormalizedFrom, hc, hrest]

/-- What is left of a path behind a mount point is a path. -/
theorem encode_suffix {q : Path} {a b : Blob} (h : encode q = a ++ b) (hb : AtSlash b) :
    ∃ q', b = encode q' := by
  induction q generalizing a with
  | nil =>
    have hnil : b = [] := (append_eq_nil_iff.mp h.symm).2
    exact ⟨[], hnil⟩
  | cons n q ih =>
    cases a with
    | nil => exact ⟨n :: q, h.symm⟩
    | cons c a =>
      rw [encode_cons, cons_append, cons.injEq] at h
      rcases append_eq_append_iff.mp h.2 with ⟨x, -, hx⟩ | ⟨x, hx, hxb⟩
      · exact ih hx
      cases x with
      | nil => exact ⟨q, hxb⟩
      | cons y x =>
        -- the mount point would end inside the name
        have hy : y = SLASH := hb y (by rw [hxb]; rfl)
        have hmem : SLASH ∈ n.bytes := by
          rw [hx, hy]
          simp
        exact absurd hmem n.noSlash

theorem endsHere_iff (b : Blob) : endsHere b = true ↔ AtSlash b := by
  cases b with
  | nil => simp [endsHere, AtSlash]
  | cons c b =>
    constructor
    · intro h d hd
      cases hd
      simpa [endsHere] using h
    · intro h
      exact endsHere_of_atSlash h

theorem trimmed_isNormalized {T : Tree} {q : Path} {fs : FsOps} {path : Blob}
    (h : T.findMountAndTrimPath (encode q) = some (fs, path)) : pathIsNormalized path = true := by
  obtain ⟨m, hm, heq⟩ := map_eq_some_iff.mp h
  have hcovers : m.covers (encode q) = true := by simpa using find?_some hm
  simp only [MountPoint.covers, Bool.and_eq_true, isPrefixOf_iff_prefix, endsHere_iff] at hcovers
  obtain ⟨hpoint, hslash⟩ := hcovers
  have hsplit : encode q = m.point ++ (encode q).drop m.point.length :=
    (prefix_iff_eq_append.mp hpoint).symm
  obtain ⟨q', hq'⟩ := encode_suffix hsplit hslash
  obtain ⟨-, rfl⟩ := Prod.mk.inj heq
  rw [hq']
  exact pathIsNormalized_encode q'

theorem drop_nextName (b : Blob) : b.drop (nextName b).length = b.dropWhile (· != SLASH) := by
  have h1 : nextName b ++ b.drop (nextName b).length = b := nextName_append_drop b
  have h2 : nextName b ++ b.dropWhile (· != SLASH) = b := takeWhile_append_dropWhile
  exact append_cancel_left (h1.trans h2.symm)

theorem atSlash_drop_nextName (b : Blob) : AtSlash (b.drop (nextName b).length) := by
  intro c hc
  rw [drop_nextName] at hc
  have hnot := head?_dropWhile_not (· != SLASH) b
  rw [mem_def.mp hc] at hnot
  simpa using hnot

theorem nextName_append {b x : Blob} (hb : SLASH ∉ b) (hx : AtSlash x) : nextName (b ++ x) = b := by
  have hsplit := nextName_append_drop (b ++ x)
  exact (name_cut (slash_notMem_nextName _) hb (atSlash_drop_nextName _) hx hsplit).1

theorem encode_noNul (q : Path) : (0 : UInt8) ∉ encode q := by
  induction q with
  | nil => simp
  | cons n q ih =>
    rw [encode_cons]
    have hslash : (0 : UInt8) ≠ SLASH := by decide
    simp [hslash, n.noNul, ih]

/-- A name is copied, whatever follows it. -/
theorem component_name (n : Name) (x : Blob) : component (n.bytes ++ x) = .name := by
  have hends : ∀ c (b : Blob), c ≠ SLASH → endsHere (c :: b) = false := by
    intro c b hc
    simp [endsHere, hc]
  have hslash := n.noSlash
  obtain ⟨c, b, hcb⟩ := exists_cons_of_ne_nil n.ne_nil
  rw [hcb] at hslash ⊢
  unfold component
  by_cases hc : c = DOT
  · subst hc
    cases b with
    | nil => exact absurd hcb n.notDot
    | cons d b =>
      have hd : d ≠ SLASH := by
        rintro rfl
        simp at hslash
      by_cases hdd : d = DOT
      · subst hdd
        cases b with
        | nil => exact absurd hcb n.notDotDot
        | cons e b =>
          have he : e ≠ SLASH := by
            rintro rfl
            simp at hslash
          simp [hends _ _ hd, hends _ _ he]
      · simp [hends _ _ hd, hdd]
  · simp [hc]

/-- What is copied is a name. -/
theorem exists_name {rest : Blob} (hne : rest ≠ []) (hhead : ∀ b ∈ rest.head?, b ≠ SLASH)
    (hnul : 0 ∉ rest) (hname : component rest = .name) : ∃ n : Name, n.bytes = nextName rest := by
  have hsplit := nextName_append_drop rest
  have hends : endsHere (rest.drop (nextName rest).length) = true :=
    (endsHere_iff _).mpr (atSlash_drop_nextName rest)
  refine ⟨⟨nextName rest, nextName_ne_nil hne hhead, slash_notMem_nextName rest, ?_, ?_, ?_⟩, rfl⟩
  · intro hmem
    exact hnul (takeWhile_subset _ hmem)
  · intro hdot
    rw [hdot] at hsplit hends
    generalize rest.drop ([46] : Blob).length = r at hsplit hends
    subst hsplit
    simp [component, DOT, hends] at hname
  intro hdots
  rw [hdots] at hsplit hends
  generalize rest.drop ([46, 46] : Blob).length = r at hsplit hends
  subst hsplit
  have hnot : endsHere (46 :: r) = false := by simp [endsHere, SLASH]
  simp [component, DOT, hends, hnot] at hname

theorem popComponent_encode (q : Path) (n : Name) :
    popComponent (encode (q ++ [n])) = some (encode q) := by
  have henc : encode (q ++ [n]) = encode q ++ SLASH :: n.bytes := by
    rw [encode_append, encode_cons]
    simp
  rw [henc]
  exact popComponent_append (encode q) n.noSlash

/-! ## A tree that does not change -/

/-- The symbolic links of a tree, as the file systems give them out: cut to the buffer. The root
is a directory. -/
structure Tree.Links (T : Tree) (links : Blob → Option Blob) : Prop where
  root : links [] = none
  readlink : ∀ path size, 0 < size → T.readlink path size = (links path).map (take size)

/-- What exists under the path is a directory that the caller may search. -/
def Searchable (cred : Cred) (T : Tree) (q : Path) : Prop :=
  ∀ st, T.stat (encode q) = some st → st.isDir = true ∧ accessCheck cred st AC_X = true

/-- The path that a base path stands for. -/
inductive BasePath : Option Blob → Path → Prop
  | null : BasePath none []
  | root : BasePath (some [SLASH]) []
  | path (q : Path) : BasePath (some (encode q)) q

section Walk

variable (call : Call) (T : Tree) (links : Blob → Option Blob) (base : Path)

/-- No link, and searched unless it is part of the base path. -/
def Passed (r : Path) : Prop :=
  links (encode r) = none ∧ (r <+: base ∨ Searchable call.cred T r)

/-- The invariant of the loop. -/
structure Turn.Walked (t : Turn) (q : Path) : Prop where
  out : t.out = encode q
  counts : t.Counts
  head : ∀ b ∈ t.p.rest.head?, b ≠ SLASH
  noNul : 0 ∉ t.p.rest
  passed : ∀ r, r <+: q → r ≠ q → Passed call T links base r
  whole : call.follow = true → links (encode q) = none
  last : t.p.rest ≠ [] → Passed call T links base q

/-- Without room for the component: the next turn leaves the buffer. -/
structure Turn.Stuck (t : Turn) : Prop where
  copies : t.Copies
  head : ∀ b ∈ t.p.rest.head?, b ≠ SLASH
  out : MAX_PATH ≤ t.out.length + 1
  n : t.n ≤ 0

/-- The call does not return a path any more. -/
def Norm.Lost : Norm → Prop
  | .turn t => t.Stuck
  | .returned _ => False
  | _ => True

/-- What a returned path is. -/
structure Resolved (q : Path) : Prop where
  passed : ∀ r, r <+: q → r ≠ q → Passed call T links base r
  whole : call.follow = true → links (encode q) = none

def Norm.Walked : Norm → Prop
  | .turn t => (∃ q, t.Walked call T links base q) ∨ t.Stuck
  | .returned out => ∃ q, out = encode q ∧ Resolved call T links base q
  | _ => True

end Walk

/-! ## One turn -/

section Turn

variable {call : Call} {T : Tree} {links : Blob → Option Blob} {base : Path} {t : Turn} {q : Path}

theorem Norm.Lost.walked {s : Norm} (h : s.Lost) : s.Walked call T links base := by
  cases s with
  | turn t => exact .inr h
  | returned out => exact h.elim
  | _ => trivial

theorem Turn.Walked.all (h : t.Walked call T links base q) (hne : t.p.rest ≠ []) (r : Path)
    (hr : r <+: q) : Passed call T links base r := by
  by_cases hrq : r = q
  · rw [hrq]
    exact h.last hne
  · exact h.passed r hr hrq

theorem Turn.Walked.of_all (hout : t.out = encode q) (hcounts : t.Counts)
    (hhead : ∀ b ∈ t.p.rest.head?, b ≠ SLASH) (hnul : 0 ∉ t.p.rest)
    (hall : ∀ r, r <+: q → Passed call T links base r) : t.Walked call T links base q :=
  ⟨hout, hcounts, hhead, hnul, fun r hr _ => hall r hr, fun _ => (hall q prefix_rfl).1,
    fun _ => hall q prefix_rfl⟩

theorem noNul_eatSlashes {p : Cursor} (h : (0 : UInt8) ∉ p.rest) : 0 ∉ p.eatSlashes.rest := by
  rw [eatSlashes_rest]
  intro hmem
  exact h (dropWhile_subset _ hmem)

theorem noNul_skip {p : Cursor} (h : (0 : UInt8) ∉ p.rest) (k : Nat) :
    0 ∉ (p.skip k).eatSlashes.rest :=
  noNul_eatSlashes (fun hmem => h (mem_of_mem_drop hmem))

theorem normalizeStart_walked {at_path : Option Blob} {path : Blob} (hat : BasePath at_path q)
    (hnul : 0 ∉ path) (hall : ∀ r, r <+: q → Passed call T links base r) (levels : Nat) :
    (normalizeStart at_path path levels).Walked call T links base := by
  have hhead := eatSlashes_head ⟨[], path⟩
  have hnul' : 0 ∉ (Cursor.eatSlashes ⟨[], path⟩).rest := noNul_eatSlashes hnul
  unfold normalizeStart
  split
  · trivial
  dsimp only
  split
  · rename_i hbase
    refine .inl ⟨q, .of_all ?_ (by simp [Turn.Counts]) hhead hnul' hall⟩
    cases hat with
    | null => rfl
    | root => rfl
    | path =>
      -- a lone slash is no encoded path
      cases q with
      | nil => rfl
      | cons n q =>
        simp only [getD_some, encode_cons, cons.injEq, append_eq_nil_iff, true_and] at hbase
        exact absurd hbase.1 n.ne_nil
  · split
    · refine .inl ⟨q, .of_all ?_ rfl hhead hnul' hall⟩
      cases hat with
      | null => rfl
      | root =>
        rename_i hnot _
        exact absurd rfl hnot
      | path => rfl
    · trivial

theorem normalizeEnd_walked (h : t.Walked call T links base q) :
    (normalizeEnd t).Walked call T links base := by
  unfold normalizeEnd
  split
  · trivial
  split
  · exact ⟨q, h.out, h.passed, h.whole⟩
  · trivial

theorem dotDotTurn_walked (h : t.Walked call T links base q) (hne : t.p.rest ≠ []) :
    (dotDotTurn t).Walked call T links base := by
  have hall := h.all hne
  have hhead := eatSlashes_head (t.p.skip 2)
  have hnul := noNul_skip h.noNul 2
  unfold dotDotTurn
  split
  · exact .inl ⟨q, .of_all h.out h.counts hhead hnul hall⟩
  rename_i hout
  rw [h.out] at hout ⊢
  rcases eq_nil_or_concat q with rfl | ⟨q', n, rfl⟩
  · exact absurd rfl hout
  rw [concat_eq_append, popComponent_encode]
  refine .inl ⟨q', .of_all rfl ?_ hhead hnul ?_⟩
  · have hcount : t.n = MAX_PATH - 1 - t.out.length := h.counts
    rw [h.out, concat_eq_append] at hcount
    show t.n + ((encode (q' ++ [n])).length - (encode q').length)
      = MAX_PATH - 1 - (encode q').length
    omega
  intro r hr
  refine hall r (hr.trans ?_)
  rw [concat_eq_append]
  exact prefix_append q' [n]

/-- A component with another one behind it is followed by a slash. -/
theorem copied_before_head (hrest : t.copied.p.rest ≠ []) :
    t.copied.p.before.head? = some SLASH := by
  have hslash : ∀ (x before : Blob),
      (eatSlashesFrom before (SLASH :: x)).before.head? = some SLASH := by
    intro x
    induction x with
    | nil => simp [eatSlashesFrom]
    | cons b x ih =>
      intro before
      by_cases hb : b = SLASH
      · subst hb
        have hstep : eatSlashesFrom before (SLASH :: SLASH :: x)
            = eatSlashesFrom (SLASH :: before) (SLASH :: x) := by
          rw [eatSlashesFrom, if_pos rfl]
        rw [hstep]
        exact ih (SLASH :: before)
      · simp [eatSlashesFrom, hb]
  have hat := atSlash_drop_nextName t.p.rest
  have hcopied : t.copied.p = eatSlashesFrom (t.p.skip (nextName t.p.rest).length).before
      (t.p.rest.drop (nextName t.p.rest).length) := rfl
  cases hx : t.p.rest.drop (nextName t.p.rest).length with
  | nil =>
    rw [hcopied, hx] at hrest
    exact absurd rfl hrest
  | cons b x =>
    have hb : b = SLASH := hat b (by rw [hx]; rfl)
    rw [hcopied, hx, hb]
    exact hslash x _

theorem expandedPath_noNul (hout : (0 : UInt8) ∉ t.out) (hrest : 0 ∉ t.p.rest) (c : Nat)
    (target : Blob) : 0 ∉ expandedPath t c target := by
  have hlink : (0 : UInt8) ∉ target.takeWhile (· != 0) := by
    intro hmem
    simpa using mem_takeWhile_imp hmem
  have hbase : (0 : UInt8) ∉ (if (target.takeWhile (· != 0)).head? = some SLASH
      then target.takeWhile (· != 0) else t.out.take c ++ target.takeWhile (· != 0)) := by
    split
    · exact hlink
    intro hmem
    rcases mem_append.mp hmem with h | h
    · exact hout (mem_of_mem_take h)
    · exact hlink h
  unfold expandedPath
  split
  · exact hbase
  intro hmem
  rcases mem_append.mp hmem with h | h
  · exact hbase h
  rcases mem_cons.mp h with h | h
  · exact absurd h (by decide)
  · exact hrest h

theorem expand_walked (hroot : links [] = none) (hout : (0 : UInt8) ∉ t.out)
    (hrest : 0 ∉ t.p.rest) (c : Nat) (target : Blob) :
    (expand t c target).Walked call T links base := by
  refine expand_ind t c target trivial trivial ?_
  intro _ _ _
  refine normalizeStart_walked BasePath.null (expandedPath_noNul hout hrest c target) ?_ _
  intro r hr
  obtain rfl := prefix_nil.mp hr
  exact ⟨hroot, .inl (List.nil_prefix)⟩

theorem copied_walked (h : t.Walked call T links base q) (hcopies : t.Copies) :
    ∃ n : Name, n.bytes = nextName t.p.rest ∧ t.copied.out = encode (q ++ [n]) := by
  obtain ⟨n, hn⟩ := exists_name hcopies.1 h.head h.noNul hcopies.2
  refine ⟨n, hn, ?_⟩
  show t.out ++ SLASH :: nextName t.p.rest = encode (q ++ [n])
  rw [h.out, encode_append, encode_cons, hn]
  simp

theorem nameTurn_walked_of_fits (hlinks : T.Links links) (h : t.Walked call T links base q)
    (hcopies : t.Copies) (hfit : t.out.length + 2 + (nextName t.p.rest).length < MAX_PATH) :
    (nameTurn call T t).Walked call T links base := by
  obtain ⟨n, hn, hout⟩ := copied_walked h hcopies
  have hall := h.all hcopies.1
  have hhead := eatSlashes_head (t.p.skip (nextName t.p.rest).length)
  have hnul := noNul_skip h.noNul (nextName t.p.rest).length
  have hcounts : t.copied.Counts := by
    have hcount : t.n = MAX_PATH - 1 - t.out.length := h.counts
    simp only [Turn.Counts, Turn.copied, length_append, length_cons]
    omega
  -- a proper prefix of the new path is a prefix of the old one
  have hpassed : ∀ r, r <+: q ++ [n] → r ≠ q ++ [n] → Passed call T links base r := by
    intro r hr hne
    rcases prefix_concat_iff.mp hr with heq | hq
    · exact absurd heq hne
    · exact hall r hq
  rw [nameTurn_fits h.counts hfit]
  by_cases hask : call.follow ∨ t.copied.p.rest ≠ []
  · rw [if_pos hask]
    refine checkSymlink_ind call.cred T t.copied (t.out.length + 1) (fun _ _ => trivial) trivial
      trivial ?_ ?_
    · intro target
      refine expand_walked hlinks.root ?_ hnul _ _
      rw [hout]
      exact encode_noNul _
    intro hread hsearch
    have hnolink : links (encode (q ++ [n])) = none := by
      rw [hlinks.readlink _ _ (by omega), hout] at hread
      exact map_eq_none_iff.mp hread
    refine .inl ⟨q ++ [n], hout, hcounts, hhead, hnul, hpassed, fun _ => hnolink, ?_⟩
    intro hrest
    refine ⟨hnolink, .inr ?_⟩
    have hst := hsearch (copied_before_head hrest)
    rw [hout] at hst
    exact hst
  · rw [if_neg hask]
    rw [not_or] at hask
    exact .inl ⟨q ++ [n], hout, hcounts, hhead, hnul, hpassed,
      fun hfollow => absurd hfollow hask.1, fun hrest => absurd hrest hask.2⟩

theorem stuck_next (h : t.Stuck) : t.next call T = .outOfBounds := by
  have hlen : MAX_PATH ≤ (t.out ++ [SLASH]).length := by
    have := h.out
    simp
    omega
  have hn := h.n
  have hsame : t.p.eatSlashes.rest ≠ [] := by
    rw [eatSlashes_rest_of_head h.head]
    exact h.copies.1
  rw [next_of_copies h.copies]
  unfold nameTurn
  split
  · rw [copyUp_stuck (by omega) h.copies.1 h.head]
    dsimp only
    rw [if_neg (by omega), if_pos (.inr hsame)]
    unfold checkSymlink
    rw [if_pos hlen]
  · rfl

/-- Without room the turn leaves the buffer, fails, or is stuck. -/
theorem nameTurn_lost (call : Call) (T : Tree) (hcounts : t.Counts) (hcopies : t.Copies)
    (hhead : ∀ b ∈ t.p.rest.head?, b ≠ SLASH) (hroom : MAX_PATH ≤ t.out.length + 2) :
    (nameTurn call T t).Lost := by
  by_cases hlt : t.out.length < MAX_PATH
  · have hcount : t.n = MAX_PATH - 1 - t.out.length := hcounts
    have hsame : t.p.eatSlashes.rest = t.p.rest := eatSlashes_rest_of_head hhead
    rw [nameTurn_stuck call T hcounts hlt hroom hcopies.1 hhead]
    refine checkSymlink_ind _ _ _ _ (fun _ _ => trivial) trivial trivial ?_ ?_
    · -- a target would have to be empty, and then the slash and the rest do not fit
      have hlong : ∀ b : Blob,
          MAX_PATH ≤ (t.out.length + 1) + b.length ∨
            MAX_PATH ≤ (expandedPath ⟨t.levels, t.out ++ [SLASH], t.n - 2, t.p.eatSlashes⟩
              (t.out.length + 1) b).length := by
        intro b
        cases b with
        | nil =>
          right
          have htake : (t.out ++ [SLASH]).take (t.out.length + 1) = t.out ++ [SLASH] :=
            take_of_length_le (by simp)
          have hpos : 0 < t.p.rest.length := length_pos_iff.mpr hcopies.1
          simp only [expandedPath, takeWhile_nil, head?_nil, reduceCtorEq, if_false,
            htake, hsame, hcopies.1, append_nil, length_append, length_cons,
            length_nil]
          omega
        | cons c b =>
          left
          simp only [length_cons]
          omega
      refine fun target => expand_ind _ _ target trivial trivial ?_
      intro _ hfits hfits'
      have hlong := hlong target
      omega
    · intro _ _
      refine ⟨⟨?_, ?_⟩, ?_, ?_, ?_⟩
      · rw [hsame]
        exact hcopies.1
      · rw [hsame]
        exact hcopies.2
      · rw [hsame]
        exact hhead
      · simp only [length_append, length_cons, length_nil]
        omega
      show t.n - 2 ≤ 0
      omega
  · unfold nameTurn
    rw [if_neg hlt]
    trivial

theorem next_walked (hlinks : T.Links links) (h : t.Walked call T links base q) :
    (t.next call T).Walked call T links base := by
  by_cases hcopies : t.Copies
  · rw [next_of_copies hcopies]
    by_cases hroom : t.out.length + 2 < MAX_PATH
    · by_cases hfit : t.out.length + 2 + (nextName t.p.rest).length < MAX_PATH
      · exact nameTurn_walked_of_fits hlinks h hcopies hfit
      rw [nameTurn_full call T h.counts hroom (by omega)]
      trivial
    · exact (nameTurn_lost call T h.counts hcopies h.head (by omega)).walked
  unfold Turn.next
  split
  · exact normalizeEnd_walked h
  rename_i hne
  cases hc : component t.p.rest with
  | dot =>
    exact .inl ⟨q, .of_all h.out h.counts (eatSlashes_head _)
      (noNul_skip h.noNul 1) (h.all hne)⟩
  | dotDot => exact dotDotTurn_walked h hne
  | name => exact absurd ⟨hne, hc⟩ hcopies

end Turn

/-- **What is returned.** On a fixed tree, from a base path without links: a path of proper names,
no proper prefix of which is a link, and that is no link itself when links are followed. -/
theorem normalize_resolved {call : Call} {T : Tree} {links : Blob → Option Blob}
    (hlinks : T.Links links) {at_path : Option Blob} {base : Path} (hat : BasePath at_path base)
    (hbase : ∀ r, r <+: base → links (encode r) = none) {path : Blob} (hnul : 0 ∉ path)
    {levels k : Nat} {out : Blob}
    (hout : pathNormalizeFrom call (fun _ => T) at_path path levels k = .returned out) :
    ∃ q, out = encode q ∧ Resolved call T links base q := by
  have hwalked : ∀ k, (pathNormalizeFrom call (fun _ => T) at_path path levels k).Walked
      call T links base := by
    refine after_inv (normalizeStart_walked hat hnul ?_ levels) ?_
    · intro r hr
      exact ⟨hbase r hr, .inl hr⟩
    intro k hk
    cases hs : after (normalizeTurn call) (fun _ => T) (normalizeStart at_path path levels) k with
    | turn t =>
      rw [hs] at hk
      rcases hk with ⟨q, hq⟩ | hstuck
      · exact next_walked hlinks hq
      show (t.next call T).Walked call T links base
      rw [stuck_next hstuck]
      trivial
    | _ =>
      rw [hs] at hk
      exact hk
  have hk := hwalked k
  rw [hout] at hk
  exact hk

end Ish.Fs
