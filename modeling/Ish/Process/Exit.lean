import Ish.Process.Family

set_option autoImplicit false

/-! # An exit and the tree

`do_exit` hands the children of the thread over, takes the thread off its group, makes the leader a
zombie if no thread is left, and destroys the thread if it is not the leader. The states in between
are a `Family`, and at the end the table is well formed again. With the other steps this is an
invariant of the whole system.
-/

namespace Ish.Process

open Option List Ish.Lib

namespace Procs

/-! ## The children of an exiting task -/

section Reparent

variable {t np : Pid}

theorem diff_self (l : List Pid) : l.diff l = [] := by
  induction l with
  | nil => rfl
  | cons a l ih => rw [diff_cons, erase_cons_head, ih]

/-- One turn of the loop. -/
theorem reparent_task (hne : np ≠ t) (s : Procs) (c x : Pid) :
    (reparent t np s c).task x =
      (s.task x).map fun X =>
        { X with
          parent := if x = c then some np else X.parent
          children :=
            if x = np then c :: X.children
            else if x = t then X.children.erase c else X.children } := by
  unfold reparent
  simp only [modTask_task]
  cases s.task x with
  | none => split_ifs <;> rfl
  | some X =>
    split_ifs with hn ht hc hc ht hc hc
    · exact absurd (hn.symm.trans ht) hne
    · exact absurd (hn.symm.trans ht) hne
    all_goals rfl

/-- What the loop does to a task: the children have a new parent, who has them in the opposite
order, and the old parent has lost them. -/
theorem foldl_reparent_task (hne : np ≠ t) (cs : List Pid) (s : Procs) (x : Pid) :
    (cs.foldl (reparent t np) s).task x =
      (s.task x).map fun X =>
        { X with
          parent := if x ∈ cs then some np else X.parent
          children :=
            if x = np then cs.reverse ++ X.children
            else if x = t then X.children.diff cs else X.children } := by
  induction cs generalizing s with
  | nil =>
    cases hX : s.task x with
    | none => simp [hX]
    | some X => simp [hX]
  | cons c cs ih =>
    rw [foldl_cons, ih, reparent_task hne, Option.map_map]
    congr 1
    funext X
    simp only [Function.comp_apply, Task.mk.injEq, true_and, and_true]
    constructor
    · by_cases hcs : x ∈ cs
      · simp [hcs]
      by_cases hc : x = c
      · simp [hc]
      · simp [hcs, hc]
    split_ifs with hn ht
    · simp
    · rw [diff_cons]
    · rfl

/-- A task that is no child keeps its parent, whoever the two parents are. -/
theorem foldl_reparent_parent (cs : List Pid) (s : Procs) {x : Pid} (hx : x ∉ cs) :
    ((cs.foldl (reparent t np) s).task x).bind Task.parent = (s.task x).bind Task.parent := by
  induction cs generalizing s with
  | nil => rfl
  | cons c cs ih =>
    rw [mem_cons, not_or] at hx
    rw [foldl_cons, ih _ hx.2]
    unfold reparent
    simp only [modTask_task, hx.1, if_false]
    cases s.task x with
    | none => split_ifs <;> rfl
    | some X => split_ifs <;> rfl

theorem foldl_reparent_group (cs : List Pid) (s : Procs) :
    (cs.foldl (reparent t np) s).group = s.group := by
  induction cs generalizing s with
  | nil => rfl
  | cons c cs ih => rw [foldl_cons, ih]; rfl

end Reparent

/-! ## Leaving the group -/

section Leave

variable {s : Procs} {t np : Pid} {T : Task} (status : Nat)
variable {g x : Pid} {N X' : Task} {G' : TGroup}

theorem leaveGroup_group (g : Pid) :
    (s.leaveGroup t T status np).group g =
      if g = T.group then (s.group g).map (fun G => { G with threads := G.threads.erase t })
      else s.group g := by
  unfold leaveGroup markExiting
  rw [modGroup_group, foldl_reparent_group]
  rfl

/-- The new parent is a thread of the group that stays, or `init` when no other is left. -/
theorem findNewParent_spec {status : Nat} (h : s.Family)
    (hnp : (s.markExiting t status).findNewParent g = some np) :
    (np ≠ t ∧ ∃ N, s.task np = some N ∧ N.exiting = false ∧ N.group = g) ∨
      (np = 1 ∧ ∀ G, s.group g = some G → ∀ x ∈ G.threads, x = t) := by
  unfold findNewParent at hnp
  dsimp only at hnp
  split at hnp
  · rename_i p hfind
    obtain rfl : p = np := some.inj hnp
    have halive := find?_some hfind
    simp only [markExiting, modTask_task, beq_iff_eq] at halive
    split at halive
    · cases hX : s.task p <;> simp [hX] at halive
    rename_i hpt
    obtain ⟨N, hN, hex⟩ := map_eq_some_iff.mp halive
    refine .inl ⟨hpt, N, hN, hex, ?_⟩
    have hmem := mem_of_find?_eq_some hfind
    cases hG : s.group g with
    | none => simp [markExiting, hG] at hmem
    | some G =>
      have hp := (h.threads g G hG).2 p (by simpa [markExiting, hG] using hmem)
      simpa [groupOf, hN] using hp
  · rename_i hnone
    split at hnp
    · refine .inr ⟨(some.inj hnp).symm, ?_⟩
      intro G hG x hx
      by_contra hxt
      have hfind := find?_eq_none.mp hnone x
      rw [show (s.markExiting t status).group g = some G from hG] at hfind
      -- a thread of the group is not exiting
      have hgx := (h.threads g G hG).2 x hx
      obtain ⟨X, hX, hXg⟩ := map_eq_some_iff.mp hgx
      have hex := (h.thread x X G hX (hXg ▸ hG)).mp hx
      exact hfind hx (by simp [markExiting, hxt, hX, hex])
    · simp at hnp

/-- The threads of a group before and after. -/
theorem leaveGroup_threads (g : Pid) :
    ((s.leaveGroup t T status np).group g).map TGroup.threads =
      (s.group g).map (fun G => if g = T.group then G.threads.erase t else G.threads) := by
  rw [leaveGroup_group]
  split
  · rw [Option.map_map]
    cases s.group g <;> simp
  · rfl

theorem leaveGroup_getGroup (hG' : (s.leaveGroup t T status np).group g = some G') :
    ∃ G, s.group g = some G ∧
      G'.threads = (if g = T.group then G.threads.erase t else G.threads) := by
  have hmap : ((s.leaveGroup t T status np).group g).map TGroup.threads = _ :=
    leaveGroup_threads status g
  rw [hG', map_some] at hmap
  obtain ⟨G, hG, heq⟩ := map_eq_some_iff.mp hmap.symm
  exact ⟨G, hG, heq.symm⟩

theorem leaveGroup_putGroup {G : TGroup} (hG : s.group g = some G) :
    ∃ G', (s.leaveGroup t T status np).group g = some G' ∧
      G'.threads = (if g = T.group then G.threads.erase t else G.threads) := by
  have hmap : ((s.leaveGroup t T status np).group g).map TGroup.threads = _ :=
    leaveGroup_threads status g
  rw [hG, map_some] at hmap
  exact map_eq_some_iff.mp hmap

/-- The children of a task are those with it as their parent. -/
theorem Family.mem_children (h : s.Family) (hT : s.task t = some T) {c : Pid} {C : Task}
    (hC : s.task c = some C) : c ∈ T.children ↔ C.parent = some t := by
  rw [h.child t T c hT]
  simp [hC]

variable (hT : s.task t = some T) (hne : np ≠ t)

include hT hne

theorem leaveGroup_task (x : Pid) :
    (s.leaveGroup t T status np).task x =
      (s.task x).map fun X =>
        { X with
          exiting := if x = t then true else X.exiting
          exitCode := if x = t then status else X.exitCode
          parent := if x ∈ T.children then some np else X.parent
          children :=
            if x = np then T.children.reverse ++ X.children
            else if x = t then [] else X.children } := by
  unfold leaveGroup markExiting
  rw [modGroup_task, foldl_reparent_task hne, modTask_task]
  by_cases hx : x = t
  · subst hx
    simp [hT, Ne.symm hne, diff_self]
  · simp [hx]

theorem leaveGroup_groupOf (x : Pid) : (s.leaveGroup t T status np).groupOf x = s.groupOf x := by
  unfold groupOf
  rw [leaveGroup_task status hT hne, Option.map_map]
  rfl

/-- Every task after the thread has left is one from before. -/
theorem leaveGroup_get (hX' : (s.leaveGroup t T status np).task x = some X') :
    ∃ X, s.task x = some X ∧ X'.group = X.group ∧ X'.zombie = X.zombie ∧
      X'.exiting = (if x = t then true else X.exiting) ∧
      X'.parent = (if x ∈ T.children then some np else X.parent) ∧
      X'.children = (if x = np then T.children.reverse ++ X.children
        else if x = t then [] else X.children) := by
  rw [leaveGroup_task status hT hne] at hX'
  obtain ⟨X, hX, rfl⟩ := map_eq_some_iff.mp hX'
  exact ⟨X, hX, rfl, rfl, rfl, rfl, rfl⟩

theorem leaveGroup_put {X : Task} (hX : s.task x = some X) :
    ∃ X', (s.leaveGroup t T status np).task x = some X' ∧
      X'.group = X.group ∧ X'.zombie = X.zombie ∧
      X'.parent = (if x ∈ T.children then some np else X.parent) := by
  rw [leaveGroup_task status hT hne, hX]
  exact ⟨_, rfl, rfl, rfl, rfl⟩

variable (h : s.Family)

include h

/-- Who has `c` as a child after its parent may have gone. -/
theorem Family.leaveGroup_parent (c x : Pid) :
    (∃ C', (s.leaveGroup t T status np).task c = some C' ∧ C'.parent = some x) ↔
      ∃ C, s.task c = some C ∧ (if C.parent = some t then x = np else C.parent = some x) := by
  constructor
  · rintro ⟨C', hC', hparent⟩
    obtain ⟨C, hC, -, -, -, hp, -⟩ := leaveGroup_get status hT hne hC'
    have hmem := h.mem_children hT hC
    refine ⟨C, hC, ?_⟩
    rw [hp] at hparent
    by_cases hcT : c ∈ T.children
    · rw [if_pos (hmem.mp hcT)]
      rw [if_pos hcT] at hparent
      exact (some.inj hparent).symm
    rw [if_neg (fun hCt => hcT (hmem.mpr hCt))]
    rw [if_neg hcT] at hparent
    exact hparent
  · rintro ⟨C, hC, hparent⟩
    obtain ⟨C', hC', -, -, hp⟩ := leaveGroup_put status hT hne hC
    have hmem := h.mem_children hT hC
    refine ⟨C', hC', ?_⟩
    rw [hp]
    by_cases hcT : c ∈ T.children
    · rw [if_pos (hmem.mp hcT)] at hparent
      rw [if_pos hcT, hparent]
    rw [if_neg (fun hCt => hcT (hmem.mpr hCt))] at hparent
    rw [if_neg hcT, hparent]

/-- The lists of children say what the parent pointers say afterwards. -/
theorem Family.leaveGroup_child (hX' : (s.leaveGroup t T status np).task x = some X') (c : Pid) :
    c ∈ X'.children ↔
      ∃ C', (s.leaveGroup t T status np).task c = some C' ∧ C'.parent = some x := by
  obtain ⟨X, hX, -, -, -, -, hchildren⟩ := leaveGroup_get status hT hne hX'
  have hiff := h.child x X c hX
  rw [h.leaveGroup_parent status hT hne, hchildren]
  by_cases hxn : x = np
  · -- the new parent
    subst hxn
    rw [if_pos rfl, mem_append, mem_reverse, hiff, h.child t T c hT]
    constructor
    · rintro (⟨C, hC, hp⟩ | ⟨C, hC, hp⟩)
      · exact ⟨C, hC, by simp [hp]⟩
      · exact ⟨C, hC, by simp [hp]⟩
    rintro ⟨C, hC, hp⟩
    by_cases hCt : C.parent = some t
    · exact .inl ⟨C, hC, hCt⟩
    · exact .inr ⟨C, hC, by simpa [hCt] using hp⟩
  · rw [if_neg hxn]
    by_cases hxt : x = t
    · -- the old one
      subst hxt
      simp only [if_true, not_mem_nil, false_iff, not_exists, not_and]
      intro C hC hp
      by_cases hCt : C.parent = some x
      · rw [if_pos hCt] at hp
        exact hne hp.symm
      rw [if_neg hCt] at hp
      exact hCt hp
    rw [if_neg hxt, hiff]
    refine exists_congr fun C => and_congr_right fun _ => ?_
    by_cases hCt : C.parent = some t
    · simp [hCt, hxn, Ne.symm hxt]
    · rw [if_neg hCt]

/-- A thread in the list of its group is one that is not exiting, also without the one that has
left. -/
theorem Family.leaveGroup_thread (hX' : (s.leaveGroup t T status np).task x = some X')
    (hG' : (s.leaveGroup t T status np).group X'.group = some G') :
    x ∈ G'.threads ↔ X'.exiting = false := by
  obtain ⟨X, hX, hg, -, hexiting, -, -⟩ := leaveGroup_get status hT hne hX'
  obtain ⟨G, hG, hthreads⟩ := leaveGroup_getGroup status hG'
  have hiff := h.thread x X G hX (hg ▸ hG)
  have hnodup := (h.threads _ G hG).1
  rw [hthreads, hexiting]
  by_cases hx : x = t
  · subst hx
    obtain rfl := Option.mem_unique hT hX
    have hnot : x ∉ G.threads.erase x := fun hin => (hnodup.mem_erase_iff.mp hin).1 rfl
    simp [hg, hnot]
  by_cases hgT : X'.group = T.group
  · rw [if_pos hgT, if_neg hx, hnodup.mem_erase_iff, hiff]
    simp [hx]
  rw [if_neg hgT, if_neg hx]
  exact hiff

theorem Family.leaveGroup_nodup (hX' : (s.leaveGroup t T status np).task x = some X') :
    X'.children.Nodup := by
  obtain ⟨X, hX, -, -, -, -, hchildren⟩ := leaveGroup_get status hT hne hX'
  rw [hchildren]
  split
  · rename_i hxn
    refine List.Nodup.append (nodup_reverse.mpr (h.children t T hT)) (h.children x X hX) ?_
    -- a child has one parent
    intro c hc hc'
    obtain ⟨C, hC, hp⟩ := (h.child t T c hT).mp (mem_reverse.mp hc)
    have hp2 := (h.mem_children hX hC).mp hc'
    rw [hp] at hp2
    exact hne (hxn.symm.trans (some.inj hp2).symm)
  split
  · exact nodup_nil
  · exact h.children x X hX

theorem Family.leaveGroup_childless (hN : s.task np = some N)
    (hnew : N.exiting = false ∧ N.group = T.group ∨ np = 1)
    (hX' : (s.leaveGroup t T status np).task x = some X') (hexiting' : X'.exiting = true)
    (hx1 : x ≠ 1) : X'.children = [] := by
  obtain ⟨X, hX, -, -, hexiting, -, hchildren⟩ := leaveGroup_get status hT hne hX'
  rw [hchildren]
  by_cases hxt : x = t
  · rw [if_neg (by rw [hxt]; exact Ne.symm hne), if_pos hxt]
  rw [hexiting, if_neg hxt] at hexiting'
  have hxn : x ≠ np := by
    rintro rfl
    obtain rfl := Option.mem_unique hX hN
    rcases hnew with ⟨hnew, -⟩ | hnew
    · simp [hexiting'] at hnew
    · exact hx1 hnew
  rw [if_neg hxn, if_neg hxt]
  exact h.childless x X hX hexiting' hx1

theorem Family.leaveGroup (hN : s.task np = some N)
    (hnew : N.exiting = false ∧ N.group = T.group ∨ np = 1) :
    (s.leaveGroup t T status np).Family := by
  have hgroupOf := leaveGroup_groupOf status hT hne
  refine
    { range := ?_
      leader := ?_
      group := ?_
      thread := fun x X' G' => h.leaveGroup_thread status hT hne
      threads := ?_
      child := fun x X' c hX' => h.leaveGroup_child status hT hne hX' c
      children := fun x X' => h.leaveGroup_nodup status hT hne
      parent := ?_
      zombie := ?_
      childless := fun x X' => h.leaveGroup_childless status hT hne hN hnew
      init := ?_
      outer := ?_
      rooted := ?_ }
  · intro p P' hP'
    obtain ⟨P, hP, -⟩ := leaveGroup_get status hT hne hP'
    exact h.range p P hP
  · intro g G' hG'
    obtain ⟨G, hG, -⟩ := leaveGroup_getGroup status hG'
    rw [hgroupOf]
    exact h.leader g G hG
  · intro x X' hX'
    obtain ⟨X, hX, hg, -⟩ := leaveGroup_get status hT hne hX'
    obtain ⟨G, hG⟩ := h.group x X hX
    obtain ⟨G', hG', -⟩ := leaveGroup_putGroup status hG
    exact ⟨G', hg ▸ hG'⟩
  · intro g G' hG'
    obtain ⟨G, hG, hthreads⟩ := leaveGroup_getGroup status hG'
    obtain ⟨hnodup, hin⟩ := h.threads g G hG
    rw [hthreads]
    refine ⟨?_, ?_⟩
    · split
      · exact hnodup.erase t
      · exact hnodup
    intro x hx
    rw [hgroupOf]
    apply hin
    split at hx
    · exact mem_of_mem_erase hx
    · exact hx
  · intro c C' q hC' hq
    obtain ⟨C, hC, -, -, -, hp, -⟩ := leaveGroup_get status hT hne hC'
    rw [hp] at hq
    split at hq
    · obtain ⟨N', hN', -⟩ := leaveGroup_put status hT hne hN
      exact ⟨N', some.inj hq ▸ hN'⟩
    obtain ⟨Q, hQ⟩ := h.parent c C q hC hq
    obtain ⟨Q', hQ', -⟩ := leaveGroup_put status hT hne hQ
    exact ⟨Q', hQ'⟩
  · intro z Z' hZ' hzombie'
    obtain ⟨Z, hZ, hg, hzombie, hexiting, -, -⟩ := leaveGroup_get status hT hne hZ'
    obtain ⟨hz, hex, G, hG, hnil⟩ := h.zombie z Z hZ (hzombie ▸ hzombie')
    obtain ⟨G', hG', hthreads⟩ := leaveGroup_putGroup status hG
    refine ⟨hg.trans hz, ?_, G', hG', ?_⟩
    · rw [hexiting, hex]
      simp
    rw [hthreads, hnil]
    simp
  · obtain ⟨I, hI, hg, hp, hz⟩ := h.init
    obtain ⟨I', hI', hg', hz', hp'⟩ := leaveGroup_put status hT hne hI
    have hnot : 1 ∉ T.children := by
      rw [h.mem_children hT hI, hp]
      simp
    exact ⟨I', hI', hg'.trans hg, by rw [hp', if_neg hnot, hp], hz'.trans hz⟩
  · intro l L' q hL' hlead' hq
    obtain ⟨L, hL, hg, -, -, hp, -⟩ := leaveGroup_get status hT hne hL'
    have hlead : L.group = l := hg.symm.trans hlead'
    rw [hgroupOf]
    rw [hp] at hq
    split at hq
    · rename_i hmem
      obtain rfl : np = q := some.inj hq
      have hLt := (h.mem_children hT hL).mp hmem
      rcases hnew with ⟨-, hgroup⟩ | rfl
      · have hout := h.outer l L t hL hlead hLt
        simpa [groupOf, hT, hN, hgroup] using hout
      obtain ⟨I, hI, hgI, hpI, -⟩ := h.init
      simp only [groupOf, hI, map_some, hgI, ne_eq, some.injEq]
      rintro rfl
      obtain rfl := Option.mem_unique hL hI
      simp [hpI] at hLt
    · exact h.outer l L q hL hlead hq
  · intro x X' hX' hnone
    obtain ⟨X, hX, -, -, -, hp, -⟩ := leaveGroup_get status hT hne hX'
    rw [hp] at hnone
    split at hnone
    · simp at hnone
    · exact h.rooted x X hX hnone

end Leave

/-! ## The end of an exit -/

section Exit

variable {s s' : Procs} {t : Pid} {status : Nat} {g : Option Pid}

/-- What `do_exit` finds: another parent for the children, and a task for it. -/
theorem Wf.doExit_newParent (h : s.Wf) {T : Task} {np : Pid} (hT : s.task t = some T)
    (hnp : (s.markExiting t status).findNewParent T.group = some np)
    (hexit : s.doExit t status = some (s', g)) :
    np ≠ t ∧ ∃ N, s.task np = some N ∧ (N.exiting = false ∧ N.group = T.group ∨ np = 1) := by
  rcases findNewParent_spec h.toFamily hnp with ⟨hne, N, hN, hex⟩ | ⟨rfl, hlone⟩
  · exact ⟨hne, N, hN, .inl hex⟩
  obtain ⟨I, hI, hg, hp, -⟩ := h.init
  refine ⟨?_, I, hI, .inr rfl⟩
  -- else `init` is alone, and the system would have come to its end
  intro hone
  obtain rfl : t = 1 := hone.symm
  obtain rfl := Option.mem_unique hT hI
  obtain ⟨G, hG⟩ := h.group 1 T hT
  have hthreads : G.threads.erase 1 = [] := by
    rw [eq_nil_iff_forall_not_mem]
    intro x hx
    have hmem := (h.threads _ G hG).1.mem_erase_iff.mp hx
    exact hmem.1 (hlone G hG x hmem.2)
  have hdead : (s.leaveGroup 1 T status 1).groupDead T.group = true := by
    simp [groupDead, leaveGroup_group, hG, hthreads]
  have hnot : 1 ∉ T.children := by
    rw [h.mem_children hT hT, hp]
    simp
  have hparent : ((s.leaveGroup 1 T status 1).task T.group).bind Task.parent = none := by
    unfold leaveGroup
    rw [modGroup_task, hg, foldl_reparent_parent _ _ hnot]
    simp [markExiting, hT, hp]
  simp only [doExit, hT, hnp, hdead, if_true, hparent] at hexit
  simp at hexit

/-- The leader becomes a zombie when the last thread has left. -/
theorem Family.setZombie (h : s.Family) {l : Pid} (hl : l ≠ 1) (hlead : s.groupOf l = some l)
    (hdead : s.groupDead l = true) : (s.modTask l (fun L => { L with zombie := true })).Family := by
  obtain ⟨G, hG, hnil⟩ : ∃ G, s.group l = some G ∧ G.threads = [] := by
    unfold groupDead at hdead
    rw [beq_iff_eq] at hdead
    exact map_eq_some_iff.mp hdead
  refine h.of_tree (sameTree_modTask s l fun _ => rfl) ?_
  intro z Z hZ Z' hZ' hzombie'
  by_cases hz : z = l
  · subst hz
    have hg : Z.group = z := by simpa [groupOf, hZ] using hlead
    refine ⟨hl, hg, ?_, G, hG, hnil⟩
    -- it is not among the threads any more
    by_contra hex
    have hmem := (h.thread z Z G hZ (hg.symm ▸ hG)).mpr (by simpa using hex)
    simp [hnil] at hmem
  rw [modTask_task, if_neg hz, hZ] at hZ'
  cases hZ'
  exact ⟨h.zombie_ne_one hZ hzombie', h.zombie z Z hZ hzombie'⟩

/-- A thread that has left its group and does not lead it is destroyed. -/
theorem Family.dropThread (h : s.Family) {T : Task} (hT : s.task t = some T)
    (hexiting : T.exiting = true)
    (hlast : ∀ x X, s.task x = some X → X.exiting = true → x ≠ t → X.group = x) :
    (s.dropThread t T.group).Wf := by
  unfold Procs.dropThread
  split
  · rename_i hlead
    refine ⟨h, ?_⟩
    intro x X hX hex
    by_cases hx : x = t
    · subst hx
      obtain rfl := Option.mem_unique hT hX
      exact hlead.symm
    · exact hlast x X hX hex hx
  rename_i hne
  have htask := taskDestroy_task hT (h.parent_of_mem hT)
  have hnone : s.group t = none :=
    group_none_of_leader h.leader (by simpa [groupOf, hT, eq_comm] using hne)
  have hinit : t ≠ 1 := by
    rintro rfl
    obtain ⟨I, hI, hg, -⟩ := h.init
    obtain rfl := Option.mem_unique hT hI
    exact hne hg.symm
  have hgroup : (s.taskDestroy t).group = s.group := by
    unfold taskDestroy
    split <;> rfl
  refine ⟨h.remove hT hexiting hinit htask ?_ ?_ ?_, ?_⟩
  · intro g _
    rw [hgroup]
  · rw [hgroup, hnone]
  · intro x X hX hxt
    obtain ⟨G, hG⟩ := h.group x X hX
    rw [hxt, hnone] at hG
    simp at hG
  intro x X' hX' hex
  rw [htask] at hX'
  split at hX'
  · simp at hX'
  rename_i hx
  obtain ⟨X, hX, rfl⟩ := map_eq_some_iff.mp hX'
  exact hlast x X hX hex hx

/-- **An exit keeps the tree.** -/
theorem Wf.doExit (h : s.Wf) (hexit : s.doExit t status = some (s', g)) : s'.Wf := by
  obtain ⟨T, np, hT, hnp, hcases⟩ := doExit_cases hexit
  obtain ⟨hne, N, hN, hnew⟩ := h.doExit_newParent hT hnp hexit
  have hfam := h.toFamily.leaveGroup status hT hne hN hnew
  obtain ⟨T1, hT1, hg1, -⟩ := leaveGroup_put status hT hne hT
  obtain ⟨T', hT', -, -, hex1, -⟩ := leaveGroup_get status hT hne hT1
  rw [if_pos rfl] at hex1
  -- the others that are exiting are leaders, as before
  have hlast : ∀ x X, (s.leaveGroup t T status np).task x = some X → X.exiting = true →
      x ≠ t → X.group = x := by
    intro x X' hX' hex hx
    obtain ⟨X, hX, hgX, -, hexX, -⟩ := leaveGroup_get status hT hne hX'
    rw [hexX, if_neg hx] at hex
    exact hgX.trans (h.last x X hX hex)
  rcases hcases with ⟨hdead, q, hq, rfl, -⟩ | ⟨-, rfl, -⟩
  · obtain ⟨G, hG⟩ := h.group t T hT
    have hlead : (s.leaveGroup t T status np).groupOf T.group = some T.group := by
      rw [leaveGroup_groupOf status hT hne]
      exact h.leader _ G hG
    have hinit : T.group ≠ 1 := by
      intro hone
      obtain ⟨I, hI, -, hp, -⟩ := hfam.init
      rw [hone, hI] at hq
      simp [hp] at hq
    have hzombie := hfam.setZombie hinit hlead hdead
    have hT2 : ((s.leaveGroup t T status np).modTask T.group
        (fun L => { L with zombie := true })).task t =
        some (if t = T.group then { T1 with zombie := true } else T1) := by
      rw [modTask_task, hT1]
      split <;> rfl
    have hdrop := hzombie.dropThread hT2 (by split <;> exact hex1) ?_
    · have hgroup : (if t = T.group then { T1 with zombie := true } else T1).group = T.group := by
        split <;> exact hg1
      rw [hgroup] at hdrop
      exact hdrop
    intro x X' hX' hex hx
    rw [modTask_task] at hX'
    split at hX'
    · obtain ⟨X, hX, rfl⟩ := map_eq_some_iff.mp hX'
      exact hlast x X hX hex hx
    · exact hlast x X' hX' hex hx
  · have hdrop := hfam.dropThread hT1 hex1 hlast
    rw [hg1] at hdrop
    exact hdrop

end Exit

end Procs

/-! ## Runs -/

namespace Sys

open Procs

theorem exiting_of_runs {σ : Sys} {t : Pid} (h : σ.runs t = true) :
    ((σ.procs.task t).map Task.exiting) = some false := by
  simp only [runs, Bool.and_eq_true, beq_iff_eq] at h
  exact h.1

theorem step_wf {σ σ' : Sys} {op : Op} (h : σ.procs.Wf) (hmoves : Moves σ op σ') : σ'.procs.Wf := by
  cases hmoves with
  | same => exact h
  | clone hruns hs => exact h.clone (exiting_of_runs hruns) hs
  | @setpgid t g id pgid _ hcheck _ =>
    have hsame := sameKin_modGroup σ.procs g
      (f := fun G => { G with pgid := (setpgidIds t id pgid).2 }) fun _ => rfl
    exact h.of_same (hsame.of_lists rfl rfl)
  | @setsid t g _ hcheck =>
    have hsame := sameKin_modGroup σ.procs g
      (f := fun G => { G with sid := g, pgid := g }) fun _ => rfl
    exact h.of_same (hsame.of_lists rfl rfl)
  | exit _ hs => exact h.doExit hs
  | report hs => exact h.of_same (sameKin_report hs)
  | found _ hscan =>
    obtain ⟨z, -, hz, -⟩ := scanned_of_scan hscan
    rcases reapIfNeeded_kin hz with hsame | ⟨Z, hZ, hzombie, rfl⟩
    · exact h.of_same hsame
    · exact h.reap hZ hzombie
  | leaves => exact h
  | sleeps => exact h

theorem init_wf : init.procs.Wf := by
  have htask : ∀ {p T}, init.procs.task p = some T →
      p = 1 ∧ T = ⟨1, none, [], 0, false, false, false, 0⟩ := by
    intro p T hT
    by_cases hp : p = 1
    · subst hp
      exact ⟨rfl, (some.inj hT).symm⟩
    · simp [init, hp] at hT
  have hgroup : ∀ {g G}, init.procs.group g = some G →
      g = 1 ∧ G = ⟨[1], 1, 1, false, false, 0⟩ := by
    intro g G hG
    by_cases hg : g = 1
    · subst hg
      exact ⟨rfl, (some.inj hG).symm⟩
    · simp [init, hg] at hG
  refine ⟨⟨?range, ?leader, ?group, ?thread, ?threads, ?child, ?children, ?parent, ?zombie,
    ?childless, ?init, ?outer, ?rooted⟩, ?last⟩
  case range =>
    intro p T hT
    rw [(htask hT).1]
    decide
  case leader =>
    intro g G hG
    rw [(hgroup hG).1]
    rfl
  case group =>
    intro t T hT
    rw [(htask hT).2]
    exact ⟨_, rfl⟩
  case thread =>
    intro t T G hT hG
    rw [(htask hT).1, (htask hT).2, (hgroup hG).2]
    simp
  case threads =>
    intro g G hG
    rw [(hgroup hG).1, (hgroup hG).2]
    refine ⟨nodup_singleton 1, ?_⟩
    intro t ht
    rw [mem_singleton.mp ht]
    rfl
  case child =>
    intro t T c hT
    rw [(htask hT).2]
    simp only [not_mem_nil, false_iff]
    rintro ⟨C, hC, hparent⟩
    rw [(htask hC).2] at hparent
    simp at hparent
  case children =>
    intro t T hT
    rw [(htask hT).2]
    exact nodup_nil
  case parent =>
    intro c C q hC hq
    rw [(htask hC).2] at hq
    simp at hq
  case zombie =>
    intro z Z hZ hzombie
    rw [(htask hZ).2] at hzombie
    simp at hzombie
  case childless =>
    intro t T hT _ _
    rw [(htask hT).2]
  case init => exact ⟨_, rfl, rfl, rfl, rfl⟩
  case outer =>
    intro l L q hL _ hq
    rw [(htask hL).2] at hq
    simp at hq
  case rooted => exact fun t T hT _ => (htask hT).1
  case last =>
    intro t T hT hex
    rw [(htask hT).2] at hex
    simp at hex

/-- **The table is a tree.** -/
theorem run_wf {ops : List Op} {σ : Sys} {answers : List Answer}
    (hrun : machine.run init ops = some (σ, answers)) : σ.procs.Wf :=
  Machine.run_inv (P := fun _ _ => True) (I := fun σ => σ.procs.Wf)
    (fun _ _ _ _ h _ hstep => step_wf h (step_moves hstep)) init_wf
    (Machine.along_of_forall (fun _ _ _ => trivial) _) hrun

/-- **Every task but `init` is the child of one task**, listed there once and nowhere else, in every
run whose clones return a pid. -/
theorem run_child_once {ops : List Op} {σ : Sys} {answers : List Answer} {c : Pid} {C : Task}
    (hrun : machine.run init ops = some (σ, answers)) (hC : σ.procs.task c = some C) (hc : c ≠ 1) :
    ∃ t, (∃ T, σ.procs.task t = some T) ∧
      ∀ u U, σ.procs.task u = some U → U.children.count c = if u = t then 1 else 0 := by
  have h := run_wf hrun
  obtain ⟨t, ht⟩ := ne_none_iff_exists'.mp fun hnone => hc (h.rooted c C hC hnone)
  refine ⟨t, h.parent c C t hC ht, ?_⟩
  intro u U hU
  have hmem : c ∈ U.children ↔ u = t := by
    rw [h.child u U c hU, hC]
    simp [ht, eq_comm]
  rw [(h.children u U hU).count, if_congr hmem rfl rfl]

/-- A thread whose creator exits becomes a child of its own. -/
theorem run_child_once_self :
    ∃ σ answers, machine.run init [.clone 1 2 false, .clone 2 3 true, .exit 2 0] =
      some (σ, answers) ∧ (σ.procs.task 3).map Task.children = some [3] ∧
        ∃ t T, σ.procs.task t = some T :=
  (fun hrun => ⟨_, _, hrun, by rfl,
    (run_child_once hrun (c := 3) rfl (by decide)).imp fun _ h => h.1⟩) rfl

end Sys

end Ish.Process
