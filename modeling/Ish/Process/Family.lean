import Ish.Process.Groups

set_option autoImplicit false

/-! # Parents, children and threads

What holds of the process table in every reachable state, as far as it is a tree of tasks: the
list of children of a task is what the parent pointers say, the threads of a group are the tasks in
it that are not exiting, and a task that is exiting and still there is a leader, a zombie when its
group has no threads left.

An exit goes through states in which the last of these does not hold: the thread has left its group
and is not destroyed yet. `Family` is what holds there too.
-/

namespace Ish.Process

open Option List Function Ish.Lib TGroup

namespace Procs

variable {s s' : Procs} {t z : Pid}

structure Family (s : Procs) : Prop where
  range : ∀ p T, s.task p = some T → p ≤ MAX_PID
  leader : ∀ g G, s.group g = some G → s.groupOf g = some g
  group : ∀ t T, s.task t = some T → ∃ G, s.group T.group = some G
  thread : ∀ t T G, s.task t = some T → s.group T.group = some G →
    (t ∈ G.threads ↔ T.exiting = false)
  threads : ∀ g G, s.group g = some G → G.threads.Nodup ∧ ∀ t ∈ G.threads, s.groupOf t = some g
  child : ∀ t T c, s.task t = some T →
    (c ∈ T.children ↔ ∃ C, s.task c = some C ∧ C.parent = some t)
  children : ∀ t T, s.task t = some T → T.children.Nodup
  parent : ∀ c C q, s.task c = some C → C.parent = some q → ∃ Q, s.task q = some Q
  zombie : ∀ z Z, s.task z = some Z → Z.zombie = true →
    Z.group = z ∧ Z.exiting = true ∧ ∃ G, s.group z = some G ∧ G.threads = []
  /-- Only `init` is given children after it has begun to exit. -/
  childless : ∀ t T, s.task t = some T → T.exiting = true → t ≠ 1 → T.children = []
  init : ∃ I, s.task 1 = some I ∧ I.group = 1 ∧ I.parent = none ∧ I.zombie = false
  /-- The parent of a process is in another one. -/
  outer : ∀ l L q, s.task l = some L → L.group = l → L.parent = some q → s.groupOf q ≠ some l
  rooted : ∀ t T, s.task t = some T → T.parent = none → t = 1

structure Wf (s : Procs) : Prop extends Family s where
  last : ∀ t T, s.task t = some T → T.exiting = true → T.group = t

/-! ## States with the same tree -/

/-- The part of a task that the tree is made of. -/
def kin (T : Task) : Pid × Option Pid × List Pid × Bool :=
  (T.group, T.parent, T.children, T.exiting)

structure SameTree (s s' : Procs) : Prop where
  task : ∀ p, (s'.task p).map kin = (s.task p).map kin
  threads : ∀ g, (s'.group g).map threads = (s.group g).map threads

/-- The zombies are the same ones too. -/
structure SameKin (s s' : Procs) : Prop extends SameTree s s' where
  zombie : ∀ p, (s'.task p).map Task.zombie = (s.task p).map Task.zombie

section SameTree

variable {s s' : Procs}

theorem SameTree.symm (h : SameTree s s') : SameTree s' s :=
  ⟨fun p => (h.task p).symm, fun g => (h.threads g).symm⟩

theorem SameTree.get (h : SameTree s s') {p : Pid} {T' : Task} (hT' : s'.task p = some T') :
    ∃ T, s.task p = some T ∧ T.group = T'.group ∧ T.parent = T'.parent ∧
      T.children = T'.children ∧ T.exiting = T'.exiting := by
  have hp := h.task p
  rw [hT', map_some] at hp
  obtain ⟨T, hT, hkin⟩ := map_eq_some_iff.mp hp.symm
  simp only [kin, Prod.mk.injEq] at hkin
  exact ⟨T, hT, hkin⟩

theorem SameTree.getGroup (h : SameTree s s') {g : Pid} {G' : TGroup}
    (hG' : s'.group g = some G') : ∃ G, s.group g = some G ∧ G.threads = G'.threads := by
  have hg := h.threads g
  rw [hG', map_some] at hg
  exact Option.map_eq_some_iff.mp hg.symm

theorem SameTree.groupOf (h : SameTree s s') (t : Pid) : s'.groupOf t = s.groupOf t := by
  have ht := congrArg (Option.map Prod.fst) (h.task t)
  simp only [Option.map_map] at ht
  exact ht

/-- The same tree, with zombies where there may be some. -/
theorem Family.of_tree (h : s.Family) (hsame : SameTree s s')
    (hzombie : ∀ z Z, s.task z = some Z → ∀ Z', s'.task z = some Z' → Z'.zombie = true →
      z ≠ 1 ∧ Z.group = z ∧ Z.exiting = true ∧ ∃ G, s.group z = some G ∧ G.threads = []) :
    s'.Family := by
  refine ⟨?_, ?_, ?_, ?_, ?_, ?_, ?_, ?_, ?_, ?_, ?_, ?_, ?_⟩
  · intro p T' hT'
    obtain ⟨T, hT, -⟩ := hsame.get hT'
    exact h.range p T hT
  · intro g G' hG'
    obtain ⟨G, hG, -⟩ := hsame.getGroup hG'
    rw [hsame.groupOf]
    exact h.leader g G hG
  · intro t T' hT'
    obtain ⟨T, hT, hgroup, -⟩ := hsame.get hT'
    obtain ⟨G, hG⟩ := h.group t T hT
    rw [hgroup] at hG
    obtain ⟨G', hG', -⟩ := hsame.symm.getGroup hG
    exact ⟨G', hG'⟩
  · intro t T' G' hT' hG'
    obtain ⟨T, hT, hgroup, -, -, hexiting⟩ := hsame.get hT'
    obtain ⟨G, hG, hthreads⟩ := hsame.getGroup hG'
    rw [← hthreads, ← hexiting]
    exact h.thread t T G hT (hgroup ▸ hG)
  · intro g G' hG'
    obtain ⟨G, hG, hthreads⟩ := hsame.getGroup hG'
    rw [← hthreads]
    refine ⟨(h.threads g G hG).1, ?_⟩
    intro t ht
    rw [hsame.groupOf]
    exact (h.threads g G hG).2 t ht
  · intro t T' c hT'
    obtain ⟨T, hT, -, -, hchildren, -⟩ := hsame.get hT'
    rw [← hchildren, h.child t T c hT]
    constructor
    · rintro ⟨C, hC, hparent⟩
      obtain ⟨C', hC', -, hparent', -⟩ := hsame.symm.get hC
      exact ⟨C', hC', hparent'.trans hparent⟩
    rintro ⟨C', hC', hparent'⟩
    obtain ⟨C, hC, -, hparent, -⟩ := hsame.get hC'
    exact ⟨C, hC, hparent.trans hparent'⟩
  · intro t T' hT'
    obtain ⟨T, hT, -, -, hchildren, -⟩ := hsame.get hT'
    rw [← hchildren]
    exact h.children t T hT
  · intro c C' q hC' hq
    obtain ⟨C, hC, -, hparent, -⟩ := hsame.get hC'
    obtain ⟨Q, hQ⟩ := h.parent c C q hC (hparent.trans hq)
    obtain ⟨Q', hQ', -⟩ := hsame.symm.get hQ
    exact ⟨Q', hQ'⟩
  · intro z Z' hZ' hzombie'
    obtain ⟨Z, hZ, hgroup, -, -, hexiting⟩ := hsame.get hZ'
    obtain ⟨-, hz, hex, G, hG, hnil⟩ := hzombie z Z hZ Z' hZ' hzombie'
    obtain ⟨G', hG', hthreads⟩ := hsame.symm.getGroup hG
    exact ⟨hgroup ▸ hz, hexiting ▸ hex, G', hG', hthreads.trans hnil⟩
  · intro t T' hT' hexiting' ht
    obtain ⟨T, hT, -, -, hchildren, hexiting⟩ := hsame.get hT'
    rw [← hchildren]
    exact h.childless t T hT (hexiting.trans hexiting') ht
  · obtain ⟨I, hI, hgroup, hparent, -⟩ := h.init
    obtain ⟨I', hI', hgroup', hparent', -⟩ := hsame.symm.get hI
    refine ⟨I', hI', hgroup'.trans hgroup, hparent'.trans hparent, ?_⟩
    cases hz : I'.zombie with
    | false => rfl
    | true => exact absurd rfl (hzombie 1 I hI I' hI' hz).1
  · intro l L' q hL' hlead hq
    obtain ⟨L, hL, hgroup, hparent, -⟩ := hsame.get hL'
    rw [hsame.groupOf]
    exact h.outer l L q hL (hgroup.trans hlead) (hparent.trans hq)
  intro t T' hT' hnone
  obtain ⟨T, hT, -, hparent, -⟩ := hsame.get hT'
  exact h.rooted t T hT (hparent.trans hnone)

/-- A zombie is not `init`. -/
theorem Family.zombie_ne_one (h : s.Family) {z : Pid} {Z : Task} (hZ : s.task z = some Z)
    (hzombie : Z.zombie = true) : z ≠ 1 := by
  rintro rfl
  obtain ⟨I, hI, -, -, hnot⟩ := h.init
  obtain rfl := Option.mem_unique hZ hI
  simp [hzombie] at hnot

theorem Wf.of_same (h : s.Wf) (hsame : SameKin s s') : s'.Wf := by
  refine ⟨h.toFamily.of_tree hsame.toSameTree ?_, ?_⟩
  · intro z Z hZ Z' hZ' hzombie'
    have hz := hsame.zombie z
    rw [hZ, hZ', map_some, map_some, some.injEq, hzombie'] at hz
    exact ⟨h.zombie_ne_one hZ hz.symm, h.zombie z Z hZ hz.symm⟩
  intro t T' hT' hexiting'
  obtain ⟨T, hT, hgroup, -, -, hexiting⟩ := hsame.get hT'
  rw [← hgroup]
  exact h.last t T hT (hexiting.trans hexiting')

/-- A task that keeps its part of the tree. -/
theorem sameTree_modTask (s : Procs) (p : Pid) {f : Task → Task} (hf : ∀ T, kin (f T) = kin T) :
    SameTree s (s.modTask p f) := by
  exact ⟨modTask_map s p hf, fun _ => rfl⟩

theorem sameKin_modTask (s : Procs) (p : Pid) {f : Task → Task}
    (hf : ∀ T, kin (f T) = kin T ∧ (f T).zombie = T.zombie) : SameKin s (s.modTask p f) := by
  exact ⟨sameTree_modTask s p fun T => (hf T).1, modTask_map s p fun T => (hf T).2⟩

/-- A group that keeps its threads. -/
theorem sameKin_modGroup (s : Procs) (g : Pid) {f : TGroup → TGroup}
    (hf : ∀ G, (f G).threads = G.threads) : SameKin s (s.modGroup g f) := by
  exact ⟨⟨fun _ => rfl, modGroup_map s g hf⟩, fun _ => rfl⟩

/-- The lists of the process groups and sessions do not matter. -/
theorem SameKin.of_lists (h : SameKin s s') {s1 : Procs} (htask : s1.task = s'.task)
    (hgroup : s1.group = s'.group) : SameKin s s1 := by
  refine ⟨⟨?_, ?_⟩, ?_⟩
  · rw [htask]
    exact h.task
  · rw [hgroup]
    exact h.threads
  rw [htask]
  exact h.zombie

end SameTree

/-! ## A task that goes away -/

section Remove

variable {s s' : Procs} {t : Pid} {T : Task}

/-- `task_destroy` takes the task out of the table and out of the one list it is in. -/
theorem taskDestroy_task (hT : s.task t = some T)
    (hchild : ∀ x X, s.task x = some X → t ∈ X.children → T.parent = some x) (x : Pid) :
    (s.taskDestroy t).task x =
      if x = t then none
      else (s.task x).map (fun X => { X with children := X.children.erase t }) := by
  by_cases hx : x = t
  · subst hx
    simp [taskDestroy]
  rw [if_neg hx]
  -- erasing does nothing where the task is not in the list
  have herase : T.parent ≠ some x →
      (s.task x).map (fun X => { X with children := X.children.erase t }) = s.task x := by
    intro hne
    cases hX : s.task x with
    | none => rfl
    | some X =>
      have hnot : t ∉ X.children := fun hmem => hne (hchild x X hX hmem)
      simp [erase_of_not_mem hnot]
  unfold taskDestroy
  simp only [hT, bind_some]
  rcases hq : T.parent with _ | q
  · simp only [ne_eq, hx, not_false_eq_true, update_of_ne]
    exact (herase (by simp [hq])).symm
  simp only [ne_eq, hx, not_false_eq_true, update_of_ne, modTask_task]
  split
  · rfl
  rename_i hne
  refine (herase ?_).symm
  rw [hq]
  exact fun heq => hne (some.inj heq).symm

/-- A task that is exiting can go, with the group that it leads if no other task is in it. -/
theorem Family.remove (h : s.Family) (hT : s.task t = some T) (hexiting : T.exiting = true)
    (hinit : t ≠ 1)
    (htask : ∀ x, s'.task x =
      if x = t then none else (s.task x).map (fun X => { X with children := X.children.erase t }))
    (hgroup : ∀ g, g ≠ t → s'.group g = s.group g) (hlead : s'.group t = none)
    (hlone : ∀ x X, s.task x = some X → X.group = t → x = t) : s'.Family := by
  -- a task that is left, and what it was
  have hget : ∀ {x X'}, s'.task x = some X' → x ≠ t ∧ ∃ X, s.task x = some X ∧
      X' = { X with children := X.children.erase t } := by
    intro x X' hX'
    rw [htask] at hX'
    split at hX'
    · simp at hX'
    rename_i hx
    obtain ⟨X, hX, heq⟩ := map_eq_some_iff.mp hX'
    exact ⟨hx, X, hX, heq.symm⟩
  have hput : ∀ {x X}, x ≠ t → s.task x = some X →
      s'.task x = some { X with children := X.children.erase t } := by
    intro x X hx hX
    rw [htask, if_neg hx, hX]
    rfl
  have hgroupOf : ∀ x, x ≠ t → s'.groupOf x = s.groupOf x := by
    intro x hx
    unfold groupOf
    rw [htask, if_neg hx]
    cases s.task x <;> rfl
  have hgrp : ∀ {g G}, s'.group g = some G → g ≠ t ∧ s.group g = some G := by
    intro g G hG
    have hne : g ≠ t := by
      rintro rfl
      simp [hlead] at hG
    exact ⟨hne, hgroup g hne ▸ hG⟩
  -- it is nobody's parent
  have hnot : ∀ {c C q}, s.task c = some C → C.parent = some q → q ≠ t := by
    rintro c C q hC hq rfl
    have hmem := (h.child q T c hT).mpr ⟨C, hC, hq⟩
    simp [h.childless q T hT hexiting hinit] at hmem
  refine ⟨?_, ?_, ?_, ?_, ?_, ?_, ?_, ?_, ?_, ?_, ?_, ?_, ?_⟩
  · intro p P' hP'
    obtain ⟨-, P, hP, -⟩ := hget hP'
    exact h.range p P hP
  · intro g G hG
    obtain ⟨hne, hG⟩ := hgrp hG
    rw [hgroupOf g hne]
    exact h.leader g G hG
  · intro x X' hX'
    obtain ⟨hx, X, hX, rfl⟩ := hget hX'
    obtain ⟨G, hG⟩ := h.group x X hX
    refine ⟨G, ?_⟩
    rw [hgroup X.group (fun heq => hx (hlone x X hX heq))]
    exact hG
  · intro x X' G hX' hG
    obtain ⟨-, X, hX, rfl⟩ := hget hX'
    exact h.thread x X G hX (hgrp hG).2
  · intro g G hG
    obtain ⟨-, hG⟩ := hgrp hG
    obtain ⟨hnodup, hthreads⟩ := h.threads g G hG
    refine ⟨hnodup, ?_⟩
    intro x hx
    have hxg := hthreads x hx
    have hne : x ≠ t := by
      rintro rfl
      have hg : T.group = g := by simpa [groupOf, hT] using hxg
      have hnot := (h.thread x T G hT (hg ▸ hG)).mp hx
      simp [hexiting] at hnot
    rw [hgroupOf x hne]
    exact hxg
  · intro x X' c hX'
    obtain ⟨hx, X, hX, rfl⟩ := hget hX'
    rw [(h.children x X hX).mem_erase_iff, h.child x X c hX]
    constructor
    · rintro ⟨hc, C, hC, hparent⟩
      exact ⟨_, hput hc hC, hparent⟩
    rintro ⟨C', hC', hparent⟩
    obtain ⟨hc, C, hC, rfl⟩ := hget hC'
    exact ⟨hc, C, hC, hparent⟩
  · intro x X' hX'
    obtain ⟨-, X, hX, rfl⟩ := hget hX'
    exact (h.children x X hX).erase t
  · intro c C' q hC' hq
    obtain ⟨-, C, hC, rfl⟩ := hget hC'
    obtain ⟨Q, hQ⟩ := h.parent c C q hC hq
    exact ⟨_, hput (hnot hC hq) hQ⟩
  · intro z Z' hZ' hzombie
    obtain ⟨hz, Z, hZ, rfl⟩ := hget hZ'
    obtain ⟨hg, hex, G, hG, hnil⟩ := h.zombie z Z hZ hzombie
    exact ⟨hg, hex, G, by rw [hgroup z hz]; exact hG, hnil⟩
  · intro x X' hX' hex hx1
    obtain ⟨-, X, hX, rfl⟩ := hget hX'
    rw [h.childless x X hX hex hx1]
    rfl
  · obtain ⟨I, hI, hgroup', hparent, hzombie⟩ := h.init
    exact ⟨_, hput (Ne.symm hinit) hI, hgroup', hparent, hzombie⟩
  · intro l L' q hL' hl hq
    obtain ⟨-, L, hL, rfl⟩ := hget hL'
    rw [hgroupOf q (hnot hL hq)]
    exact h.outer l L q hL hl hq
  · intro x X' hX' hnone
    obtain ⟨-, X, hX, rfl⟩ := hget hX'
    exact h.rooted x X hX hnone

end Remove

/-- The only list with the task in it is its parent's. -/
theorem Family.parent_of_mem (h : s.Family) {T : Task} (hT : s.task t = some T) (x : Pid) (X : Task)
    (hX : s.task x = some X) (hmem : t ∈ X.children) : T.parent = some x := by
  obtain ⟨T', hT', hparent⟩ := (h.child x X t hX).mp hmem
  rw [hT] at hT'
  exact some.inj hT' ▸ hparent

/-! ## Reaping -/

/-- A group without threads has no task but its leader. -/
theorem Wf.lone (h : s.Wf) {G : TGroup} (hG : s.group z = some G) (hnil : G.threads = []) (x : Pid)
    (X : Task) (hX : s.task x = some X) (hz : X.group = z) : x = z := by
  cases hexiting : X.exiting with
  | true => exact (h.last x X hX hexiting).symm.trans hz
  | false =>
    have hmem := (h.thread x X G hX (hz ▸ hG)).mpr hexiting
    simp [hnil] at hmem

theorem reap_group (s : Procs) (z : Pid) : (s.reap z).group = update s.group z none := by
  unfold Procs.reap taskDestroy
  split <;> rfl

theorem Wf.reap (h : s.Wf) {Z : Task} (hZ : s.task z = some Z) (hzombie : Z.zombie = true) :
    (s.reap z).Wf := by
  obtain ⟨hg, hexiting, G, hG, hnil⟩ := h.zombie z Z hZ hzombie
  have hinit : z ≠ 1 := h.zombie_ne_one hZ hzombie
  have htask : ∀ x, (s.reap z).task x =
      if x = z then none
      else (s.task x).map (fun X => { X with children := X.children.erase z }) :=
    taskDestroy_task
      (s := { s with
        group := update s.group z none
        session := unlink s.session z
        pgroup := unlink s.pgroup z }) hZ (h.parent_of_mem hZ)
  have hgroup := reap_group s z
  refine ⟨h.toFamily.remove hZ hexiting hinit htask ?_ ?_ (h.lone hG hnil), ?_⟩
  · intro g hne
    rw [hgroup, update_of_ne hne]
  · rw [hgroup, update_self]
  intro x X' hX' hex
  rw [htask] at hX'
  split at hX'
  · simp at hX'
  obtain ⟨X, hX, rfl⟩ := map_eq_some_iff.mp hX'
  exact h.last x X hX hex

/-! ## A new task -/

section Birth

variable {s s' : Procs} {t p g : Pid} {T : Task}

theorem taskCreate_task (x : Pid) :
    (s.taskCreate t p T g).task x =
      if x = p then some { T with group := g, parent := some t, children := [] }
      else (s.task x).map
        (fun X => { X with children := if x = t then p :: X.children else X.children }) := by
  unfold taskCreate
  by_cases hx : x = p
  · simp [hx]
  simp only [ne_eq, hx, not_false_eq_true, update_of_ne, modTask_task, if_false]
  by_cases ht : x = t
  · simp [ht]
  · cases s.task x <;> simp [ht]

/-- A live thread can have a child, a new thread of its group or the leader of a new one. -/
theorem Wf.add (h : s.Wf) (hT : s.task t = some T) (hlive : T.exiting = false)
    (hp : s.task p = none) (hle : p ≤ MAX_PID) (hg : g = T.group ∨ g = p)
    (htask : ∀ x, s'.task x =
      if x = p then some { T with group := g, parent := some t, children := [] }
      else (s.task x).map
        (fun X => { X with children := if x = t then p :: X.children else X.children }))
    (hgroup : ∀ x, (s'.group x).map threads =
      if x = g then some (p :: ((s.group x).map threads).getD [])
      else (s.group x).map threads) : s'.Wf := by
  have hfree : ∀ {x X}, s.task x = some X → x ≠ p := by
    rintro x X hX rfl
    simp [hp] at hX
  have hput : ∀ {x X}, s.task x = some X →
      s'.task x = some { X with children := if x = t then p :: X.children else X.children } := by
    intro x X hX
    rw [htask, if_neg (hfree hX), hX, map_some]
  have hget : ∀ {x X'}, s'.task x = some X' →
      (x = p ∧ X' = { T with group := g, parent := some t, children := [] }) ∨
      (x ≠ p ∧ ∃ X, s.task x = some X ∧
        X' = { X with children := if x = t then p :: X.children else X.children }) := by
    intro x X' hX'
    rw [htask] at hX'
    split at hX'
    · exact .inl ⟨‹_›, (some.inj hX').symm⟩
    obtain ⟨X, hX, heq⟩ := map_eq_some_iff.mp hX'
    exact .inr ⟨‹_›, X, hX, heq.symm⟩
  have hgroupOf : ∀ {x}, x ≠ p → s'.groupOf x = s.groupOf x := by
    intro x hx
    unfold groupOf
    rw [htask, if_neg hx]
    cases s.task x <;> rfl
  have hgroupOf' : s'.groupOf p = some g := by simp [groupOf, htask]
  have hled : ∀ {x G}, s.group x = some G → s'.groupOf x = some x := by
    intro x G hG
    have hlead := h.leader x G hG
    obtain ⟨X, hX, -⟩ := map_eq_some_iff.mp hlead
    exact (hgroupOf (hfree hX)).trans hlead
  have hnew : ∀ {x X}, s.task x = some X → p ∉ X.children := by
    intro x X hX hmem
    obtain ⟨C, hC, -⟩ := (h.child x X p hX).mp hmem
    exact hfree hC rfl
  -- the group of the new task is new, or that of its parent
  have hold : ∀ {x G}, s.group x = some G → x = g → x = T.group := by
    intro x G hG hx
    refine hg.elim (fun hg => hx.trans hg) ?_
    intro hgp
    have hlead := h.leader x G hG
    simp [groupOf, hx, hgp, hp] at hlead
  have hgetGroup : ∀ {x G'}, s'.group x = some G' →
      (x = g ∧ G'.threads = p :: ((s.group x).map threads).getD []) ∨
      (x ≠ g ∧ ∃ G, s.group x = some G ∧ G.threads = G'.threads) := by
    intro x G' hG'
    have hx := hgroup x
    rw [hG', map_some] at hx
    split at hx
    · exact .inl ⟨‹_›, some.inj hx⟩
    · exact .inr ⟨‹_›, map_eq_some_iff.mp hx.symm⟩
  have hputGroup : ∀ {x G}, s.group x = some G → ∃ G', s'.group x = some G' ∧
      G'.threads = if x = g then p :: G.threads else G.threads := by
    intro x G hG
    have hx := hgroup x
    rw [hG, map_some, getD_some] at hx
    have hx' : (s'.group x).map threads = some (if x = g then p :: G.threads else G.threads) := by
      rw [hx]
      split <;> rfl
    exact map_eq_some_iff.mp hx'
  have hzombie : T.zombie = false := by
    cases hz : T.zombie with
    | false => rfl
    | true => simp [(h.zombie t T hT hz).2.1] at hlive
  refine ⟨⟨?range, ?leader, ?group, ?thread, ?threads, ?child, ?children, ?parent, ?zombie,
    ?childless, ?init, ?outer, ?rooted⟩, ?last⟩
  case range =>
    intro x X' hX'
    rcases hget hX' with ⟨rfl, -⟩ | ⟨-, X, hX, -⟩
    · exact hle
    · exact h.range x X hX
  case leader =>
    intro x G' hG'
    rcases hgetGroup hG' with ⟨rfl, -⟩ | ⟨hx, G, hG, -⟩
    · rcases hg with rfl | rfl
      · obtain ⟨G, hG⟩ := h.group t T hT
        exact hled hG
      · exact hgroupOf'
    · exact hled hG
  case group =>
    intro x X' hX'
    rcases hget hX' with ⟨-, rfl⟩ | ⟨-, X, hX, rfl⟩
    · have hx := hgroup g
      rw [if_pos rfl] at hx
      obtain ⟨G', hG', -⟩ := map_eq_some_iff.mp hx
      exact ⟨G', hG'⟩
    obtain ⟨G, hG⟩ := h.group x X hX
    obtain ⟨G', hG', -⟩ := hputGroup hG
    exact ⟨G', hG'⟩
  case thread =>
    intro x X' G' hX' hG'
    rcases hget hX' with ⟨rfl, rfl⟩ | ⟨hx, X, hX, rfl⟩
    · rcases hgetGroup hG' with ⟨-, hthreads⟩ | ⟨hne, -⟩
      · simp [hthreads, hlive]
      · exact absurd rfl hne
    obtain ⟨G, hG⟩ := h.group x X hX
    obtain ⟨G1, hG1, hthreads⟩ := hputGroup hG
    obtain rfl := Option.mem_unique hG' hG1
    rw [← h.thread x X G hX hG, hthreads]
    split <;> simp [hx]
  case threads =>
    intro x G' hG'
    have hmem : ∀ {G}, s.group x = some G → ∀ y ∈ G.threads, y ≠ p ∧ s'.groupOf y = some x := by
      intro G hG y hy
      have hyx := (h.threads x G hG).2 y hy
      obtain ⟨Y, hY, -⟩ := map_eq_some_iff.mp hyx
      exact ⟨hfree hY, (hgroupOf (hfree hY)).trans hyx⟩
    cases hG : s.group x with
    | none =>
      rcases hgetGroup hG' with ⟨rfl, hthreads⟩ | ⟨-, G, hG1, -⟩
      · rw [hthreads, hG]
        simp [hgroupOf']
      · simp [hG] at hG1
    | some G =>
      obtain ⟨G1, hG1, hthreads⟩ := hputGroup hG
      obtain rfl := Option.mem_unique hG' hG1
      rw [hthreads]
      split
      · rename_i hxg
        have hnot : p ∉ G.threads := fun hpG => (hmem hG p hpG).1 rfl
        refine ⟨nodup_cons.mpr ⟨hnot, (h.threads x G hG).1⟩, ?_⟩
        intro y hy
        rcases mem_cons.mp hy with rfl | hy
        · rw [hgroupOf', hxg]
        · exact (hmem hG y hy).2
      · exact ⟨(h.threads x G hG).1, fun y hy => (hmem hG y hy).2⟩
  case child =>
    intro x X' c hX'
    rcases hget hX' with ⟨rfl, rfl⟩ | ⟨hx, X, hX, rfl⟩
    · -- the new task has no children yet
      simp only [not_mem_nil, false_iff]
      rintro ⟨C', hC', hparent⟩
      rcases hget hC' with ⟨rfl, rfl⟩ | ⟨-, C, hC, rfl⟩
      · exact hfree hT (some.inj hparent)
      obtain ⟨X, hX⟩ := h.parent c C x hC hparent
      exact hfree hX rfl
    by_cases hc : c = p
    · subst hc
      by_cases hxt : x = t
      · simp [hxt, htask]
      · simp [hxt, hnew hX, htask, Ne.symm hxt]
    have hiff : c ∈ (if x = t then p :: X.children else X.children) ↔ c ∈ X.children := by
      split <;> simp [hc]
    rw [hiff, h.child x X c hX]
    constructor
    · rintro ⟨C, hC, hparent⟩
      exact ⟨_, hput hC, hparent⟩
    rintro ⟨C', hC', hparent⟩
    rcases hget hC' with ⟨rfl, -⟩ | ⟨-, C, hC, rfl⟩
    · exact absurd rfl hc
    · exact ⟨C, hC, hparent⟩
  case children =>
    intro x X' hX'
    rcases hget hX' with ⟨-, rfl⟩ | ⟨-, X, hX, rfl⟩
    · exact nodup_nil
    split
    · exact nodup_cons.mpr ⟨hnew hX, h.children x X hX⟩
    · exact h.children x X hX
  case parent =>
    intro c C' q hC' hq
    rcases hget hC' with ⟨-, rfl⟩ | ⟨-, C, hC, rfl⟩
    · exact ⟨_, some.inj hq ▸ hput hT⟩
    obtain ⟨Q, hQ⟩ := h.parent c C q hC hq
    exact ⟨_, hput hQ⟩
  case zombie =>
    intro z Z' hZ' hz
    rcases hget hZ' with ⟨-, rfl⟩ | ⟨-, Z, hZ, rfl⟩
    · exact absurd (hz.symm.trans hzombie) (by simp)
    obtain ⟨hZg, hex, G, hG, hnil⟩ := h.zombie z Z hZ hz
    refine ⟨hZg, hex, ?_⟩
    obtain ⟨G', hG', hthreads⟩ := hputGroup hG
    refine ⟨G', hG', ?_⟩
    rw [hthreads, if_neg, hnil]
    -- the parent is a thread of its group
    intro hzg
    have hmem := (h.thread t T G hT (hold hG hzg ▸ hG)).mpr hlive
    simp [hnil] at hmem
  case childless =>
    intro x X' hX' hex hx1
    rcases hget hX' with ⟨-, rfl⟩ | ⟨-, X, hX, rfl⟩
    · rfl
    have hxt : x ≠ t := by
      rintro rfl
      obtain rfl := Option.mem_unique hT hX
      simp [hlive] at hex
    rw [if_neg hxt]
    exact h.childless x X hX hex hx1
  case init =>
    obtain ⟨I, hI, hgI, hparent, hzI⟩ := h.init
    exact ⟨_, hput hI, hgI, hparent, hzI⟩
  case outer =>
    intro l L' q hL' hlead hq
    rcases hget hL' with ⟨rfl, rfl⟩ | ⟨-, L, hL, rfl⟩
    · obtain rfl : t = q := some.inj hq
      rw [hgroupOf (hfree hT)]
      simp only [groupOf, hT, map_some, ne_eq, some.injEq]
      -- the group of the parent has a leader
      intro hgroup
      obtain ⟨G, hG⟩ := h.group t T hT
      have hl := h.leader _ G hG
      simp [groupOf, hgroup, hp] at hl
    obtain ⟨Q, hQ⟩ := h.parent l L q hL hq
    rw [hgroupOf (hfree hQ)]
    exact h.outer l L q hL hlead hq
  case rooted =>
    intro x X' hX' hnone
    rcases hget hX' with ⟨-, rfl⟩ | ⟨-, X, hX, rfl⟩
    · simp at hnone
    · exact h.rooted x X hX hnone
  case last =>
    intro x X' hX' hex
    rcases hget hX' with ⟨-, rfl⟩ | ⟨-, X, hX, rfl⟩
    · exact absurd (hex.symm.trans hlive) (by simp)
    · exact h.last x X hX hex

theorem Wf.clone (h : s.Wf) {thread : Bool} (hlive : ((s.task t).map Task.exiting) = some false)
    (hclone : s.clone t p thread = some s') : s'.Wf := by
  obtain ⟨T, G, -, hle, hp, hT, hG, hcases⟩ := clone_cases hclone
  have hlive : T.exiting = false := by simpa [hT] using hlive
  rcases hcases with ⟨-, rfl⟩ | ⟨-, rfl⟩
  · refine h.add hT hlive hp hle (.inl rfl) taskCreate_task ?_
    intro x
    rw [modGroup_group]
    split
    · rename_i hx
      subst hx
      simp [taskCreate, hG]
    · rfl
  refine h.add hT hlive hp hle (.inr rfl) taskCreate_task ?_
  have hnone : s.group p = none := group_none_of_leader h.leader (by simp [groupOf, hp])
  intro x
  by_cases hx : x = p
  · simp [tgroupCopy, hx, hnone]
  · simp [tgroupCopy, hx, taskCreate]

end Birth

/-! ## Reports -/

theorem sameKin_refl (s : Procs) : SameKin s s :=
  ⟨⟨fun _ => rfl, fun _ => rfl⟩, fun _ => rfl⟩

theorem sameKin_report {r : Report} {g : Option Pid} (h : s.report t r = some (s', g)) :
    SameKin s s' := by
  rcases report_effect h with rfl | ⟨p, f, rfl, hf⟩ | ⟨stopped, sig, rfl⟩
  · exact sameKin_refl s'
  · exact sameKin_modGroup s p fun G => (hf G).1
  · exact sameKin_modTask s t fun _ => ⟨rfl, rfl⟩

/-- A child that is looked at is reaped, or keeps its place in the tree. -/
theorem reapIfNeeded_kin {options : WaitOptions} {status : Nat}
    (h : s.reapIfNeeded z options = some (status, s')) :
    SameKin s s' ∨ ∃ Z, s.task z = some Z ∧ Z.zombie = true ∧ s' = s.reap z := by
  rcases reapIfNeeded_effect h with rfl | ⟨-, -, -, rfl⟩ | rfl | ⟨Z, -, hZ, -, hzombie, -, hs'⟩
  · exact .inl (sameKin_refl s')
  · exact .inl (sameKin_modGroup s z fun _ => rfl)
  · exact .inl (sameKin_modTask s z fun _ => ⟨rfl, rfl⟩)
  · exact .inr ⟨Z, hZ, hzombie, hs'⟩

end Procs

end Ish.Process
