import Ish.Fs.Resolve

set_option autoImplicit false

/-! # Normalizing a path again

Normalizing a path that was returned walks the same names and finds no link, so it returns the
same path. It asks of every name that has another one behind it that it may be searched. The
first call has asked the same of the names it copied, but nothing of those of the base path;
there the search permission is a condition.
-/

namespace Ish.Fs

open List Ish.Lib Ish.Fakefs

section Again

variable {call : Call} {T : Tree} {links : Blob → Option Blob} {t : Turn} {q r s : Path} {n : Name}

/-- The names `r` are copied and the names `s` are left. -/
structure Turn.Again (t : Turn) (r s : Path) : Prop where
  out : t.out = encode r
  counts : t.Counts
  rest : t.p.rest = (encode s).drop 1

theorem dropWhile_encode (s : Path) : (encode s).dropWhile (· == SLASH) = (encode s).drop 1 := by
  cases s with
  | nil => rfl
  | cons n s =>
    obtain ⟨c, b, hcb⟩ := exists_cons_of_ne_nil n.ne_nil
    have hc : c ≠ SLASH := by
      rintro rfl
      exact n.noSlash (by rw [hcb]; simp)
    simp [encode_cons, hcb, hc]

theorem checkSymlink_goes_on {cred : Cred} {c : Nat} (hlt : t.out.length < MAX_PATH)
    (hout : t.out = encode q) (hread : T.readlink (encode q) (MAX_PATH - c) = none)
    (hbefore : t.p.before ≠ [])
    (hsearch : t.p.before.head? = some SLASH → Searchable cred T q) :
    checkSymlink cred T t c = .turn t := by
  obtain ⟨⟨fs, path⟩, hfind⟩ :=
    T.findMountAndTrimPath_isSome (endsHere_of_atSlash (atSlash_encode q))
  have hread' : fs.tryReadlink path (MAX_PATH - c) = none := by
    rw [Tree.readlink, hfind] at hread
    exact hread
  unfold checkSymlink
  rw [if_neg (Nat.not_le.mpr hlt), hout, pathIsNormalized_encode, hfind]
  simp only [Bool.not_true, Bool.false_eq_true, if_false, trimmed_isNormalized hfind, hread']
  rcases checkSearch_cases cred fs path t with ⟨hnil, -⟩ | ⟨-, hnot⟩ | ⟨hs, -⟩
  · exact absurd hnil hbefore
  · refine absurd ?_ hnot
    intro hslash st hst
    refine hsearch hslash st ?_
    rw [Tree.stat, hfind]
    exact hst
  · exact hs

theorem again_next (hlinks : T.Links links) (h : t.Again r (n :: s))
    (hlen : (encode (r ++ [n])).length + 1 < MAX_PATH)
    (hnolink : call.follow = true ∨ s ≠ [] → links (encode (r ++ [n])) = none)
    (hsearch : s ≠ [] → Searchable call.cred T (r ++ [n])) :
    t.next call T = .turn t.copied ∧ t.copied.Again (r ++ [n]) s := by
  have hrest : t.p.rest = n.bytes ++ encode s := by
    rw [h.rest, encode_cons]
    rfl
  have hname : nextName t.p.rest = n.bytes := by
    rw [hrest]
    exact nextName_append n.noSlash (atSlash_encode s)
  have hlen' : (encode (r ++ [n])).length = t.out.length + 1 + n.bytes.length := by
    rw [h.out, encode_append, encode_cons]
    simp
    omega
  have hcopies : t.Copies := by
    refine ⟨?_, ?_⟩
    · rw [hrest]
      exact append_ne_nil_of_left_ne_nil n.ne_nil _
    rw [hrest]
    exact component_name n _
  have hhead : ∀ b ∈ t.p.rest.head?, b ≠ SLASH := by
    rintro b hb rfl
    rw [hrest, head?_append_of_ne_nil _ n.ne_nil] at hb
    exact n.noSlash (mem_of_mem_head? hb)
  have hdrop : (t.p.skip (nextName t.p.rest).length).rest = encode s := by
    show t.p.rest.drop (nextName t.p.rest).length = encode s
    rw [hname, hrest, drop_left' rfl]
  have hagain : t.copied.Again (r ++ [n]) s := by
    refine ⟨?_, ?_, ?_⟩
    · show t.out ++ SLASH :: nextName t.p.rest = encode (r ++ [n])
      rw [h.out, hname, encode_append, encode_cons]
      simp
    · have hcount : t.n = MAX_PATH - 1 - t.out.length := h.counts
      simp only [Turn.Counts, Turn.copied, length_append, length_cons]
      omega
    · show (t.p.skip (nextName t.p.rest).length).eatSlashes.rest = _
      rw [eatSlashes_rest, hdrop, dropWhile_encode]
  -- with nothing behind it, the byte before the pointer is the last one of the name
  have hlast : s = [] → t.copied.p.before.head? ≠ some SLASH := by
    rintro rfl hslash
    have hbefore : t.copied.p.before = n.bytes.reverse ++ t.p.before := by
      show (eatSlashesFrom ((t.p.rest.take (nextName t.p.rest).length).reverse ++ t.p.before)
        (t.p.rest.drop (nextName t.p.rest).length)).before = _
      have htake : t.p.rest.take (nextName t.p.rest).length = n.bytes := by
        rw [hname, hrest, take_left' rfl]
      have hnil : t.p.rest.drop (nextName t.p.rest).length = [] := hdrop
      rw [htake, hnil]
      rfl
    rw [hbefore, head?_append_of_ne_nil _ (reverse_ne_nil_iff.mpr n.ne_nil)] at hslash
    exact n.noSlash (mem_reverse.mp (mem_of_mem_head? hslash))
  refine ⟨?_, hagain⟩
  rw [next_of_copies hcopies, nameTurn_fits h.counts (by rw [hname]; omega)]
  by_cases hask : call.follow ∨ t.copied.p.rest ≠ []
  · have hs : call.follow = true ∨ s ≠ [] := by
      rcases hask with hf | hr
      · exact .inl hf
      refine .inr ?_
      rintro rfl
      exact hr hagain.rest
    rw [if_pos hask]
    refine checkSymlink_goes_on ?_ hagain.out ?_ (copied_before hcopies hhead) ?_
    · rw [hagain.out]
      omega
    · rw [hlinks.readlink _ _ (by omega), hnolink hs]
      rfl
    intro hslash
    refine hsearch ?_
    intro hnil
    exact hlast hnil hslash
  · rw [if_neg hask]

/-- The walk along the names of a path that was returned. -/
theorem again_returns (hlinks : T.Links links) (hlen : (encode (r ++ s)).length + 1 < MAX_PATH)
    (hnolink : ∀ x, x <+: r ++ s → x ≠ r ++ s → links (encode x) = none)
    (hwhole : call.follow = true → links (encode (r ++ s)) = none)
    (hsearch : ∀ x, x <+: r ++ s → x ≠ r ++ s → x ≠ [] → Searchable call.cred T x)
    (h : t.Again r s) :
    after (normalizeTurn call) (fun _ => T) (.turn t) (s.length + 1)
      = .returned (encode (r ++ s)) := by
  induction s generalizing r t with
  | nil =>
    have hout : t.out = encode (r ++ []) := by
      rw [h.out, append_nil]
    have hrest : t.p.rest = [] := h.rest
    show t.next call T = _
    rw [Turn.next, if_pos hrest, normalizeEnd, hout, if_neg (by omega),
      pathIsNormalized_encode, if_pos rfl]
  | cons n s ih =>
    have happ : r ++ n :: s = (r ++ [n]) ++ s := by simp
    rw [happ] at hlen hnolink hwhole hsearch ⊢
    have hstart : r ++ [n] <+: (r ++ [n]) ++ s := prefix_append _ _
    have hproper : s ≠ [] → r ++ [n] ≠ (r ++ [n]) ++ s := by
      intro hs heq
      exact hs (append_right_eq_self.mp heq.symm)
    have hle : (encode (r ++ [n])).length ≤ (encode ((r ++ [n]) ++ s)).length := by
      rw [encode_append (r ++ [n]) s, length_append]
      omega
    have hstep : t.next call T = .turn t.copied ∧ t.copied.Again (r ++ [n]) s := by
      refine again_next hlinks h (by omega) ?_ (fun hs => hsearch _ hstart (hproper hs) (by simp))
      intro hor
      by_cases hs : s = []
      · rcases hor with hf | hne
        · have hlink := hwhole hf
          rwa [hs, append_nil] at hlink
        · exact absurd hs hne
      · exact hnolink _ hstart (hproper hs)
    rw [length_cons, after_succ']
    show after (normalizeTurn call) (fun _ => T) (t.next call T) (s.length + 1) = _
    rw [hstep.1]
    exact ih hlen hnolink hwhole hsearch hstep.2

theorem normalizeStart_again (hq : q ≠ []) :
    ∃ t, normalizeStart none (encode q) 0 = .turn t ∧ t.Again [] q := by
  have hne : encode q ≠ [] := fun h => hq (encode_injective h)
  have hnil : ([] : Blob) ≠ [SLASH] := by simp
  refine ⟨⟨0, [], MAX_PATH - 1 - ([] : Blob).length, Cursor.eatSlashes ⟨[], encode q⟩⟩, ?_, ?_⟩
  · rw [normalizeStart, if_neg hne]
    dsimp only [Option.getD_none]
    rw [if_neg hnil, if_pos (by decide)]
  · refine ⟨rfl, rfl, ?_⟩
    rw [eatSlashes_rest, dropWhile_encode]

end Again

/-- **Path resolution.** On a fixed tree, from a base path without links, a path that is returned
consists of proper names, no proper prefix of it is a link, and with links followed it is none
itself. A path that is not the root and leaves two bytes of the buffer is returned again, if what
exists of the base path on the way to it may be searched. -/
theorem normalize_resolves (call : Call) (T : Tree) (links : Blob → Option Blob)
    (hlinks : T.Links links) (at_path : Option Blob) (base : Path) (hat : BasePath at_path base)
    (hbase : ∀ r, r <+: base → links (encode r) = none) (path : Blob) (hnul : 0 ∉ path)
    (levels k : Nat) (out : Blob)
    (hout : pathNormalizeFrom call (fun _ => T) at_path path levels k = .returned out) :
    ∃ q, out = encode q ∧
      (∀ r, r <+: q → r ≠ q → links (encode r) = none) ∧
      (call.follow = true → links (encode q) = none) ∧
      (out ≠ [] → out.length + 1 < MAX_PATH →
        (∀ r, r <+: base → r <+: q → r ≠ q → r ≠ [] → Searchable call.cred T r) →
        ∃ k', pathNormalizeFrom call (fun _ => T) none out 0 k' = .returned out) := by
  obtain ⟨q, rfl, hq⟩ := normalize_resolved hlinks hat hbase hnul hout
  refine ⟨q, rfl, fun r hr hne => (hq.passed r hr hne).1, hq.whole, ?_⟩
  intro hne hlen hsearch
  have hnil : q ≠ [] := by
    rintro rfl
    exact hne rfl
  obtain ⟨t, hstart, hagain⟩ := normalizeStart_again hnil
  refine ⟨q.length + 1, ?_⟩
  have hreturns : after (normalizeTurn call) (fun _ => T) (.turn t) (q.length + 1)
      = .returned (encode ([] ++ q)) := by
    refine again_returns hlinks hlen (fun x hx hxq => (hq.passed x hx hxq).1) hq.whole ?_ hagain
    intro x hx hxq hxnil
    rcases (hq.passed x hx hxq).2 with hx' | hx'
    · exact hsearch x hx' hx hxq hxnil
    · exact hx'
  rw [pathNormalizeFrom, hstart]
  exact hreturns

/-- `/a` is a directory that only its owner may search. -/
def privateDir : FsOps where
  readlink := none
  stat p := if p = [SLASH, 97] then some ⟨S_IFDIR ||| 448, 0, 0⟩ else none
  readlink_le := FsOps.none_readlink_le

theorem ne_of_length {b c : Blob} {n : Nat} (hb : b.length = n) (hc : c.length ≠ n) : b ≠ c := by
  rintro rfl
  exact hc hb

/-- A name that fills the buffer. -/
def longName : Name where
  bytes := replicate 4094 97
  ne_nil := ne_of_length length_replicate (by decide)
  noSlash h := absurd (eq_of_mem_replicate h) (by decide)
  noNul h := absurd (eq_of_mem_replicate h) (by decide)
  notDot := ne_of_length length_replicate (by decide)
  notDotDot := ne_of_length length_replicate (by decide)

theorem encode_longName_length : (encode [longName]).length = 4095 := by
  rw [encode_cons, length_cons, encode_nil, append_nil]
  exact congrArg (· + 1) length_replicate

theorem not_returned_of_failed {call : Call} {trees : Nat → Tree} {at_path : Option Blob}
    {path : Blob} {levels j : Nat} {e : Errno}
    (h : pathNormalizeFrom call trees at_path path levels j = .failed e) (k : Nat) (out : Blob) :
    pathNormalizeFrom call trees at_path path levels k ≠ .returned out := by
  intro hk
  cases after_unique (fun _ => rfl) (fun _ => rfl) h hk

/-- Three results that are not returned again: the root, whose path is empty; a name below a base
path that the caller may not search; and a base path that fills the buffer. -/
theorem normalize_again_fails :
    (pathNormalizeFrom rootFollow (fun _ => rootTree noLinks) none [SLASH] 0 1 = .returned [] ∧
      ∀ k, pathNormalizeFrom rootFollow (fun _ => rootTree noLinks) none [] 0 k ≠ .returned []) ∧
    (pathNormalizeFrom ⟨true, ⟨1000, 1000⟩⟩ (fun _ => rootTree privateDir)
        (some (encode [nameA])) [98] 0 2 = .returned (encode [nameA, nameB]) ∧
      ∀ k, pathNormalizeFrom ⟨true, ⟨1000, 1000⟩⟩ (fun _ => rootTree privateDir) none
        (encode [nameA, nameB]) 0 k ≠ .returned (encode [nameA, nameB])) ∧
    (pathNormalizeFrom rootFollow (fun _ => rootTree noLinks) (some (encode [longName])) [DOT] 0 2
        = .returned (encode [longName]) ∧
      ∀ k, pathNormalizeFrom rootFollow (fun _ => rootTree noLinks) none (encode [longName]) 0 k
        ≠ .returned (encode [longName])) := by
  refine ⟨⟨rfl, ?_⟩, ⟨rfl, ?_⟩, ⟨?_, ?_⟩⟩
  · exact fun k => not_returned_of_failed (j := 0) (e := .ENOENT) rfl k _
  · exact fun k => not_returned_of_failed (j := 1) (e := .EACCES) rfl k _
  · have hlen := encode_longName_length
    have hne : encode [longName] ≠ [SLASH] := ne_of_length hlen (by decide)
    have hstart : normalizeStart (some (encode [longName])) [DOT] 0
        = .turn ⟨0, encode [longName], MAX_PATH - 1 - (encode [longName]).length,
          ⟨[], [DOT]⟩⟩ := by
      rw [normalizeStart, if_neg (by simp)]
      dsimp only [Option.getD_some]
      rw [if_neg hne, if_pos (by rw [hlen]; decide)]
      rfl
    have hturns : ∀ out n, after (normalizeTurn rootFollow) (fun _ => rootTree noLinks)
        (.turn ⟨0, out, n, ⟨[], [DOT]⟩⟩) 2 = normalizeEnd ⟨0, out, n, ⟨[DOT], []⟩⟩ :=
      fun _ _ => rfl
    rw [pathNormalizeFrom, hstart, hturns, normalizeEnd, if_neg (by rw [hlen]; decide),
      pathIsNormalized_encode, if_pos rfl]
  · obtain ⟨t, hstart, hagain⟩ := normalizeStart_again (q := [longName]) (by simp)
    have hname : nextName t.p.rest = longName.bytes := by
      rw [hagain.rest, encode_cons]
      exact nextName_append longName.noSlash (atSlash_encode [])
    have hcopies : t.Copies := by
      have hrest : t.p.rest = longName.bytes ++ encode [] := by
        rw [hagain.rest, encode_cons]
        rfl
      rw [Turn.Copies, hrest]
      exact ⟨append_ne_nil_of_left_ne_nil longName.ne_nil _, component_name longName _⟩
    have hout : t.out.length = 0 := by
      rw [hagain.out]
      rfl
    have hbytes : longName.bytes.length = 4094 := length_replicate
    have hfail : pathNormalizeFrom rootFollow (fun _ => rootTree noLinks) none
        (encode [longName]) 0 1 = .failed .ENAMETOOLONG := by
      rw [pathNormalizeFrom, hstart]
      show t.next rootFollow (rootTree noLinks) = _
      rw [next_of_copies hcopies]
      refine nameTurn_full _ _ hagain.counts ?_ ?_
      · rw [hout]
        decide
      rw [hname, hout, hbytes]
      decide
    exact fun k => not_returned_of_failed hfail k _

/-- `/b` is a link to `a`. -/
def linkB (p : Blob) : Option Blob := if p = [SLASH, 98] then some [97] else none

def oneLink : FsOps where
  readlink := some (fun p size => (linkB p).map (take size))
  stat _ := none
  readlink_le := by
    rintro f ⟨rfl⟩ path size b hb
    obtain ⟨target, -, rfl⟩ := Option.map_eq_some_iff.mp hb
    exact length_take_le size target

theorem oneLink_links : (rootTree oneLink).Links linkB := by
  refine ⟨rfl, ?_⟩
  intro path size _
  by_cases hpath : path = [SLASH, 98]
  · subst hpath
    rfl
  have hnone : linkB path = none := if_neg hpath
  cases hends : endsHere path with
  | false =>
    simp [Tree.readlink, Tree.findMountAndTrimPath, rootTree, MountPoint.covers, hends, hnone]
  | true =>
    simp [Tree.readlink, Tree.findMountAndTrimPath, rootTree, MountPoint.covers, hends,
      FsOps.tryReadlink, oneLink, hnone]

/-- `a/../b` with `/b` a link to `a` is `/a`, and stays so. -/
theorem normalize_resolves_link :
    ∃ q, [SLASH, 97] = encode q ∧
      (∀ r, r <+: q → r ≠ q → linkB (encode r) = none) ∧
      (rootFollow.follow = true → linkB (encode q) = none) ∧
      (([SLASH, 97] : Blob) ≠ [] → ([SLASH, 97] : Blob).length + 1 < MAX_PATH →
        (∀ r, r <+: [] → r <+: q → r ≠ q → r ≠ [] →
          Searchable rootFollow.cred (rootTree oneLink) r) →
        ∃ k', pathNormalizeFrom rootFollow (fun _ => rootTree oneLink) none [SLASH, 97] 0 k'
          = .returned [SLASH, 97]) := by
  refine normalize_resolves rootFollow (rootTree oneLink) linkB oneLink_links none []
    BasePath.null ?_ [97, 47, 46, 46, 47, 98] (by decide) 0 5 [SLASH, 97] rfl
  intro r hr
  obtain rfl := prefix_nil.mp hr
  rfl

end Ish.Fs
