import Ish.Process.Rows

set_option autoImplicit false

/-! # Sleepers in `do_wait`

A thread that has found no child to report sleeps until its group's `child_exit` is notified. For a
sleeper to miss nothing, every step that puts a zombie in its reach has to notify it. A process that
ends does this: the group of the leader's parent is notified. But a thread that exits also hands its
children over to another thread or to `init`, zombies among them, and nobody is notified of those.
-/

namespace Ish.Process

open Option Function Ish.Lib

namespace Procs

/-- A zombie that the call would reap. It is then a child of the caller's process
(`considers.groupChild`). -/
def reaps (s : Procs) (w : Pid) (call : WaitCall) (z : Pid) : Prop :=
  s.considers w call z ∧ call.options.exited = true ∧ s.isZombie z

/-- What a scan reads of the zombie, of its parent and of the caller. -/
theorem reaps_of_row {s s' : Procs} {w z : Pid} {call : WaitCall}
    (hw : s'.groupOf w = s.groupOf w) (hz : SameRow s s' z)
    (hq : ∀ q, s.ownChild q z → s'.groupOf q = s.groupOf q)
    (hpgid : s.ownChild w z → s.isZombie z → s'.pgidOf z = s.pgidOf z)
    (hr : s'.reaps w call z) : s.reaps w call z := by
  obtain ⟨⟨hasks, hchild⟩, hexited, Z', hZ', hzombie'⟩ := hr
  obtain ⟨Z, hZ, hgroup, hparent, hzombie, -⟩ := hz.get hZ'
  have hz' : s.isZombie z := ⟨Z, hZ, hzombie.trans hzombie'⟩
  refine ⟨?_, hexited, hz'⟩
  by_cases hid : call.idtype = .pid
  · rw [if_pos hid] at hchild
    obtain ⟨C, q, hC, hlead, hp, hgroups⟩ := hchild
    obtain rfl := Option.mem_unique hZ' hC
    have hown : s.ownChild q z := ⟨Z, hZ, hgroup.trans hlead, hparent.trans hp⟩
    refine ⟨?_, ?_⟩
    · simp only [asks, hid] at hasks ⊢
      exact hasks
    rw [if_pos hid]
    refine ⟨Z, q, hZ, hgroup.trans hlead, hparent.trans hp, ?_⟩
    rw [← hq q hown, ← hw]
    exact hgroups
  · rw [if_neg hid] at hchild
    obtain ⟨C, hC, hlead, hp⟩ := hchild
    obtain rfl := Option.mem_unique hZ' hC
    have hown : s.ownChild w z := ⟨Z, hZ, hgroup.trans hlead, hparent.trans hp⟩
    refine ⟨?_, ?_⟩
    · unfold asks at hasks ⊢
      rw [← hpgid hown hz']
      exact hasks
    · rw [if_neg hid]
      exact hown

/-! ## Process groups of zombies -/

section Pgid

variable {s s' : Procs} {x : Pid}

theorem pgidOf_modGroup_of_ne {g : Pid} (f : TGroup → TGroup) (hx : x ≠ g) :
    (s.modGroup g f).pgidOf x = s.pgidOf x := by
  unfold pgidOf
  rw [modGroup_group, if_neg hx]

theorem clone_pgidOf {t p : Pid} {thread : Bool} (hclone : s.clone t p thread = some s')
    {X : Task} (hX : s.task x = some X) : s'.pgidOf x = s.pgidOf x := by
  obtain ⟨T, G, -, -, hp, -, -, hcases⟩ := clone_cases hclone
  have hx : x ≠ p := by
    rintro rfl
    simp [hp] at hX
  rcases hcases with ⟨-, rfl⟩ | ⟨-, rfl⟩
  · have hsame := (sameGroups_modGroup (s.taskCreate t p T T.group) T.group
      (f := fun G => { G with threads := p :: G.threads }) fun _ => ⟨rfl, rfl⟩).pgidOf
    rw [hsame]
    rfl
  · simp [pgidOf, tgroupCopy, hx, taskCreate]

theorem reapIfNeeded_pgidOf {z : Pid} {options : WaitOptions} {status : Nat}
    (h : s.reapIfNeeded z options = some (status, s')) (hx : s'.task x ≠ none) :
    s'.pgidOf x = s.pgidOf x := by
  rcases reapIfNeeded_effect h with rfl | ⟨-, -, -, rfl⟩ | rfl | ⟨-, -, -, -, -, -, rfl⟩
  · rfl
  · have hsame := (sameGroups_modGroup s z
      (f := fun G => { G with groupExitCode := 0 }) fun _ => ⟨rfl, rfl⟩).pgidOf
    rw [hsame]
  · rfl
  have hxz : x ≠ z := by
    rintro rfl
    simp [reap, taskDestroy] at hx
  simp [pgidOf, reap_group, hxz]

/-- The group of a zombie is moved by its parent only. -/
theorem Wf.setpgid_zombie (h : s.Wf) {t g : Pid} {id pgid : Nat}
    (hcheck : s.setpgidCheck t id pgid = .ok g) (hlive : (s.task t).map Task.exiting = some false)
    (hz : s.isZombie g) : s.ownChild t g := by
  obtain ⟨Z, hZ, hzombie⟩ := hz
  obtain ⟨hlead, hex, G, hG, hnil⟩ := h.zombie g Z hZ hzombie
  obtain ⟨T, G', hT, hTg, -, hwho⟩ := setpgidCheck_ok hcheck
  -- the task that was named is the zombie itself
  obtain rfl : id = g := h.lone hG hnil id T hT hTg
  obtain rfl := Option.mem_unique hZ hT
  rcases hwho with rfl | hparent
  · simp [hZ, hex] at hlive
  · exact ⟨Z, hZ, hlead, hparent⟩

theorem Wf.setsid_zombie (h : s.Wf) {t g : Pid} (hcheck : s.setsidCheck t = .ok g)
    (hlive : (s.task t).map Task.exiting = some false) : ¬ s.isZombie g := by
  rintro ⟨Z, hZ, hzombie⟩
  obtain ⟨hlead, hex, G, hG, hnil⟩ := h.zombie g Z hZ hzombie
  obtain ⟨T, G', hT, hTg, -⟩ := setsidCheck_ok hcheck
  obtain rfl : t = g := h.lone hG hnil t T hT hTg
  obtain rfl := Option.mem_unique hZ hT
  simp [hZ, hex] at hlive

end Pgid

/-- The call would reap the zombie as a child of the heir of `t`. -/
def inherits (s : Procs) (t w : Pid) (call : WaitCall) (z : Pid) : Prop :=
  s.asks call z ∧
    if call.idtype = .pid then s.groupOf (s.heir t) = s.groupOf w else s.heir t = w

theorem inherits.groupOf {s : Procs} {t w : Pid} {call : WaitCall} {z : Pid}
    (h : s.inherits t w call z) : s.groupOf (s.heir t) = s.groupOf w := by
  have hheir := h.2
  split at hheir
  · exact hheir
  · rw [hheir]

section Exit

variable {s s' : Procs} {t w z : Pid} {T : Task} {status : Nat} {g : Option Pid}
  {call : WaitCall}

theorem asks_congr_pgid (hpgid : s'.pgidOf = s.pgidOf) : s'.asks call z ↔ s.asks call z := by
  unfold asks
  rw [hpgid]

/-- A zombie child of the thread is in the reach of the sleepers that inherit it. -/
theorem Wf.doExit_reaps_iff (h : s.Wf) (hT : s.task t = some T) (hlive : T.exiting = false)
    (hexit : s.doExit t status = some (s', g)) (hw : w ≠ t) (hown : s.ownChild t z)
    (hz : s.isZombie z) (hexited : call.options.exited = true) :
    s'.reaps w call z ↔ s.inherits t w call z := by
  obtain ⟨Z, hZ, hlead, hparent⟩ := hown
  have hzombie : Z.zombie = true := by
    obtain ⟨Z1, hZ1, hzombie⟩ := hz
    obtain rfl := Option.mem_unique hZ hZ1
    exact hzombie
  have hzt : z ≠ t := by
    rintro rfl
    obtain rfl := Option.mem_unique hZ hT
    simp [(h.zombie z Z hZ hzombie).2.1] at hlive
  obtain ⟨Z', hZ', hgroup', -, hparent', hzombie'⟩ := h.doExit_put hT hlive hexit hzt hZ
  rw [if_pos hparent] at hparent'
  have hw' := h.doExit_groupOf hT hlive hexit hw
  have hheir := h.doExit_groupOf hT hlive hexit (h.heir_ne hT hexit)
  have hasks : s'.asks call z ↔ s.asks call z := asks_congr_pgid (doExit_pgidOf hexit)
  have hchild : (if call.idtype = .pid then s'.groupChild w z else s'.ownChild w z) ↔
      if call.idtype = .pid then s.groupOf (s.heir t) = s.groupOf w else s.heir t = w := by
    split
    · constructor
      · rintro ⟨C, q, hC, -, hq, hgroups⟩
        obtain rfl := Option.mem_unique hZ' hC
        obtain rfl : s.heir t = q := some.inj (hparent'.symm.trans hq)
        rw [← hheir, ← hw']
        exact hgroups
      · intro hgroups
        exact ⟨Z', s.heir t, hZ', hgroup'.trans hlead, hparent', by rw [hheir, hw', hgroups]⟩
    constructor
    · rintro ⟨C, hC, -, hq⟩
      obtain rfl := Option.mem_unique hZ' hC
      exact some.inj (hparent'.symm.trans hq)
    · intro hheirw
      exact ⟨Z', hZ', hgroup'.trans hlead, by rw [hparent', hheirw]⟩
  unfold reaps considers inherits
  rw [hasks, hchild]
  exact ⟨fun hr => hr.1, fun hi => ⟨hi, hexited, Z', hZ', hzombie' hzombie⟩⟩

/-- A zombie that an exit puts in the reach of a sleeper is a child of the thread, or it is the
process that has ended, and then the sleeper's group is notified. -/
theorem Wf.doExit_reaps_cases (h : s.Wf) (hT : s.task t = some T) (hlive : T.exiting = false)
    (hexit : s.doExit t status = some (s', g)) (hw : w ≠ t) (hr : s'.reaps w call z) :
    s.reaps w call z ∨ (s.ownChild t z ∧ s.isZombie z) ∨
      (s.lastThread t = true ∧ s.parentGroup t = s.groupOf w) := by
  obtain ⟨C, q, hC, hlead', hq, hgroups⟩ := hr.1.groupChild
  have hz' := hr.2.2
  obtain ⟨Z', hZ', hzombie'⟩ := hz'
  obtain rfl := Option.mem_unique hZ' hC
  obtain ⟨Z, hZ, hgroup, hparent, hzombie⟩ := h.doExit_get hT hlive hexit hZ'
  have hlead : Z.group = z := hgroup.symm.trans hlead'
  by_cases hzb : Z.zombie = true
  · by_cases hZt : Z.parent = some t
    · exact .inr (.inl ⟨⟨Z, hZ, hlead, hZt⟩, Z, hZ, hzb⟩)
    -- a zombie of another thread stays where it is
    refine .inl (reaps_of_row (h.doExit_groupOf hT hlive hexit hw) ?_ ?_ ?_ hr)
    · have hzt : z ≠ t := by
        rintro rfl
        obtain rfl := Option.mem_unique hZ hT
        simp [(h.zombie z Z hZ hzb).2.1] at hlive
      unfold SameRow
      rw [h.doExit_row hT hlive hexit, if_neg (fun hcon => hzt hcon.1), hZ]
      simp [row, hZt, hzb, hzt]
    · rintro q' ⟨Z1, hZ1, -, hq'⟩
      obtain rfl := Option.mem_unique hZ hZ1
      refine h.doExit_groupOf hT hlive hexit ?_
      rintro rfl
      exact hZt hq'
    · exact fun _ _ => congrFun (doExit_pgidOf hexit) z
  · -- the process of the thread has ended
    have hend : z = T.group ∧ s.lastThread t = true := by
      rw [hzombie'] at hzombie
      simpa [hzb] using hzombie.symm
    obtain ⟨rfl, hlast⟩ := hend
    refine .inr (.inr ⟨hlast, ?_⟩)
    have hgt : s.groupOf t = some T.group := by simp [groupOf, hT]
    have hZt : Z.parent ≠ some t := fun hZt => h.outer _ Z t hZ hlead hZt hgt
    rw [if_neg hZt, hq] at hparent
    have hqt : q ≠ t := by
      rintro rfl
      exact hZt hparent.symm
    rw [h.doExit_groupOf hT hlive hexit hqt, h.doExit_groupOf hT hlive hexit hw] at hgroups
    simp only [parentGroup, hgt, bind_some, hZ, ← hparent, hgroups]

/-- The exit notifies the group of `w`. -/
theorem Wf.doExit_notifies_iff (h : s.Wf) (hT : s.task t = some T) (hlive : T.exiting = false)
    (hexit : s.doExit t status = some (s', g)) (hw : w ≠ t) {W : Task} (hW : s.task w = some W) :
    (g.isSome ∧ s'.groupOf w = g) ↔ s.lastThread t = true ∧ s.parentGroup t = s.groupOf w := by
  rw [h.doExit_notified hT hlive hexit, h.doExit_groupOf hT hlive hexit hw]
  have hgw : s.groupOf w = some W.group := by simp [groupOf, hW]
  rw [hgw]
  split
  · rename_i hlast
    constructor
    · rintro ⟨-, heq⟩
      exact ⟨hlast, heq.symm⟩
    rintro ⟨-, heq⟩
    exact ⟨by rw [heq]; rfl, heq.symm⟩
  · rename_i hlast
    simp [hlast]

end Exit

end Procs

namespace Sys

open Procs

/-! ## What is to hold -/

/-- No sleeper has a zombie that its call would reap without having been notified since it last
looked. Sleepers are those without `WNOHANG`. -/
def NoLostWakeup (σ : Sys) : Prop :=
  ∀ w W, σ.waits w = some W → W.notified = false → ∀ z, ¬ σ.procs.reaps w W.call z

structure Asleep (σ : Sys) : Prop where
  wf : σ.procs.Wf
  live : ∀ w W, σ.waits w = some W → (σ.procs.task w).map Task.exiting = some false

section Steps

variable {σ σ' : Sys} {op : Op}

theorem notify_some {waits : Pid → Option Wait} {s : Procs} {g : Option Pid} {w : Pid} {W' : Wait}
    (h : notify waits s g w = some W') :
    ∃ W, waits w = some W ∧ W.call = W'.call ∧
      (W'.notified = false → W.notified = false ∧ ¬ (g.isSome ∧ s.groupOf w = g)) := by
  obtain ⟨W, hW, rfl⟩ := map_eq_some_iff.mp h
  refine ⟨W, hW, ?_, ?_⟩
  · split <;> rfl
  intro hun
  split at hun
  · simp at hun
  · exact ⟨hun, ‹_›⟩

/-- A sleeper after a step slept before it, or it is the one that has just looked. -/
theorem Moves.waits (hmoves : Moves σ op σ') {w : Pid} {W' : Wait} (hW' : σ'.waits w = some W') :
    (∃ W, σ.waits w = some W ∧ W.call = W'.call ∧ (W'.notified = false → W.notified = false)) ∨
      (σ.Scans op w W'.call ∧ σ.procs.scan w W'.call = .nothing ∧ σ'.procs = σ.procs) := by
  cases hmoves with
  | same | clone | setpgid | setsid => exact .inl ⟨W', hW', rfl, id⟩
  | exit | report =>
    obtain ⟨W, hW, hcall, hun⟩ := notify_some hW'
    exact .inl ⟨W, hW, hcall, fun h => (hun h).1⟩
  | found | leaves =>
    rcases update_cases hW' with ⟨-, hv⟩ | ⟨-, hW⟩
    · simp at hv
    · exact .inl ⟨W', hW, rfl, id⟩
  | sleeps hcall hscan =>
    rcases update_cases hW' with ⟨rfl, hv⟩ | ⟨-, hW⟩
    · cases hv
      exact .inr ⟨hcall, hscan, rfl⟩
    · exact .inl ⟨W', hW, rfl, id⟩

/-- The rows in a step that is no exit. -/
theorem Moves.rows (h : σ.procs.Wf) (hmoves : Moves σ op σ') (hne : ∀ t status, op ≠ .exit t status)
    (x : Pid) :
    SameRow σ.procs σ'.procs x ∨
      (σ.procs.task x = none ∧ ∀ X', σ'.procs.task x = some X' → X'.zombie = false) ∨
      (σ.procs.isZombie x ∧ σ'.procs.task x = none) := by
  cases hmoves with
  | same => exact .inl rfl
  | clone hruns hs => exact (h.clone_row (exiting_of_runs hruns) hs x).imp_right .inl
  | setpgid _ _ _ => exact .inl rfl
  | setsid _ _ => exact .inl rfl
  | exit => exact absurd rfl (hne _ _)
  | report hs => exact .inl ((sameKin_report hs).row x)
  | found _ hscan =>
    obtain ⟨z, -, hz, -⟩ := scanned_of_scan hscan
    rcases reapIfNeeded_kin hz with hsame | ⟨Z, hZ, hzombie, rfl⟩
    · exact .inl (hsame.row x)
    · exact (h.reap_row ⟨Z, hZ, hzombie⟩ x).imp_right .inr
  | leaves => exact .inl rfl
  | sleeps => exact .inl rfl

/-- The process group of a zombie that stays, in a step that is not its parent's. -/
theorem Moves.pgid (h : σ.procs.Wf) (hmoves : Moves σ op σ') {w z : Pid} {W : Wait}
    (hW : σ.waits w = some W) (hown : σ.procs.ownChild w z) (hz : σ.procs.isZombie z)
    (hz' : σ'.procs.task z ≠ none) : σ'.procs.pgidOf z = σ.procs.pgidOf z := by
  have hsleeps : ∀ {t}, σ.runs t = true → t ≠ w := by
    rintro t hruns rfl
    simp [runs, hW] at hruns
  cases hmoves with
  | same => rfl
  | clone _ hs =>
    obtain ⟨Z, hZ, -⟩ := hz
    exact clone_pgidOf hs hZ
  | setpgid hruns hcheck _ =>
    refine pgidOf_modGroup_of_ne _ ?_
    rintro rfl
    obtain ⟨Z, hZ, -, hparent⟩ := hown
    obtain ⟨Z', hZ', -, hparent'⟩ := h.setpgid_zombie hcheck (exiting_of_runs hruns) hz
    obtain rfl := Option.mem_unique hZ hZ'
    exact hsleeps hruns (some.inj (hparent'.symm.trans hparent))
  | setsid hruns hcheck =>
    refine pgidOf_modGroup_of_ne _ ?_
    rintro rfl
    exact h.setsid_zombie hcheck (exiting_of_runs hruns) hz
  | exit _ hs => exact congrFun (doExit_pgidOf hs) z
  | report hs => exact congrFun (sameGroups_report _ hs).pgidOf z
  | found _ hscan =>
    obtain ⟨z0, -, hz0, -⟩ := scanned_of_scan hscan
    exact reapIfNeeded_pgidOf hz0 hz'
  | leaves => rfl
  | sleeps => rfl

/-- A thread that looks for children is alive. -/
theorem Asleep.live_of_scans (h : Asleep σ) {t : Pid} {call : WaitCall}
    (hcall : σ.Scans op t call) : (σ.procs.task t).map Task.exiting = some false := by
  rcases hcall with ⟨-, hruns⟩ | ⟨_, W, -, hW, -⟩
  · exact exiting_of_runs hruns
  · exact h.live t W hW

/-- In a step that is no exit, a thread that is alive keeps its row. -/
theorem Moves.row_of_live (h : σ.procs.Wf) (hmoves : Moves σ op σ')
    (hne : ∀ t status, op ≠ .exit t status) {w : Pid}
    (hlive : (σ.procs.task w).map Task.exiting = some false) : SameRow σ.procs σ'.procs w := by
  rcases hmoves.rows h hne w with hrow | ⟨hnone, -⟩ | ⟨⟨Z, hZ, hzombie⟩, -⟩
  · exact hrow
  · simp [hnone] at hlive
  · simp [hZ, (h.zombie w Z hZ hzombie).2.1] at hlive

theorem Moves.noLostWakeup (h : Asleep σ) (hno : NoLostWakeup σ) (hmoves : Moves σ op σ')
    (hne : ∀ t status, op ≠ .exit t status) : NoLostWakeup σ' := by
  intro w W' hW' hun z hr
  rcases hmoves.waits hW' with ⟨W, hW, hcall, hun'⟩ | ⟨hcall, hscan, hprocs⟩
  · -- the zombie was in the reach of the sleeper before
    refine hno w W hW (hun' hun) z ?_
    rw [hcall]
    have hz' := hr.2.2
    obtain ⟨Z', hZ', hzombie'⟩ := hz'
    refine reaps_of_row (hmoves.row_of_live h.wf hne (h.live w W hW)).groupOf ?_ ?_ ?_ hr
    · rcases hmoves.rows h.wf hne z with hrow | ⟨-, hnew⟩ | ⟨-, hnone⟩
      · exact hrow
      · simp [hnew Z' hZ'] at hzombie'
      · simp [hnone] at hZ'
    · rintro q ⟨Z, hZ, -, hparent⟩
      obtain ⟨Q, hQ⟩ := h.wf.parent z Z q hZ hparent
      rcases hmoves.rows h.wf hne q with hrow | ⟨hnone, -⟩ | ⟨hzq, -⟩
      · exact hrow.groupOf
      · simp [hnone] at hQ
      -- a zombie has no children
      obtain ⟨Q', hQ', hzombie⟩ := hzq
      have hmem := (h.wf.child q Q' z hQ').mpr ⟨Z, hZ, hparent⟩
      rw [h.wf.childless q Q' hQ' (h.wf.zombie q Q' hQ' hzombie).2.1
        (h.wf.zombie_ne_one hQ' hzombie)] at hmem
      simp at hmem
    · intro hown hz
      exact hmoves.pgid h.wf hW hown hz (by simp [hZ'])
  · -- it has just looked
    rw [hprocs] at hr
    obtain ⟨hc, hexited, hz⟩ := hr
    obtain ⟨T, hT, hlive⟩ := map_eq_some_iff.mp (h.live_of_scans hcall)
    exact h.wf.reapIfNeeded_ne_none W'.call.options hz hexited
      (h.wf.reapIfNeeded_of_nothing hT hlive hscan hc)

end Steps

/-! ## Exits -/

/-- Whenever a thread exits with a zombie child that the call of a sleeper would reap as a child of
the heir, the exit notifies the sleeper's group, because it ends a process with its parent in that
group. -/
def StepWakes (σ : Sys) : Op → Prop
  | .exit t _ => σ.runs t = true → ∀ z w W, σ.procs.ownChild t z → σ.procs.isZombie z →
      σ.waits w = some W → W.notified = false → W.call.options.exited = true →
      σ.procs.inherits t w W.call z →
        σ.procs.lastThread t = true ∧ σ.procs.parentGroup t = σ.procs.groupOf w
  | _ => True

section Exit

variable {σ : Sys} {t : Pid} {status : Nat} {s : Procs} {g : Option Pid}

theorem Asleep.ne_of_runs (hruns : σ.runs t = true) {w : Pid} {W : Wait}
    (hW : σ.waits w = some W) : w ≠ t := by
  rintro rfl
  simp [runs, hW] at hruns

theorem exit_noLostWakeup_iff (h : Asleep σ) (hno : NoLostWakeup σ) (hruns : σ.runs t = true)
    (hexit : σ.procs.doExit t status = some (s, g)) :
    NoLostWakeup ⟨s, notify σ.waits s g⟩ ↔ StepWakes σ (.exit t status) := by
  obtain ⟨T, hT, hlive⟩ := map_eq_some_iff.mp (exiting_of_runs hruns)
  have hnotifies : ∀ {w W}, σ.waits w = some W → ((g.isSome ∧ s.groupOf w = g) ↔
      σ.procs.lastThread t = true ∧ σ.procs.parentGroup t = σ.procs.groupOf w) := by
    intro w W hW
    obtain ⟨X, hX, -⟩ := map_eq_some_iff.mp (h.live w W hW)
    exact h.wf.doExit_notifies_iff hT hlive hexit (Asleep.ne_of_runs hruns hW) hX
  constructor
  · intro hno' _ z w W hown hz hW hun hexited hinh
    by_contra hcon
    have hW' : notify σ.waits s g w = some W := by
      unfold notify
      rw [hW, map_some, if_neg (mt (hnotifies hW).mp hcon)]
    refine hno' w W hW' hun z ?_
    exact (h.wf.doExit_reaps_iff hT hlive hexit (Asleep.ne_of_runs hruns hW) hown hz hexited).mpr
      hinh
  intro hwakes w W' hW' hun z hr
  obtain ⟨W, hW, hcall, hnot⟩ := notify_some hW'
  obtain ⟨hun, hnot⟩ := hnot hun
  have hw := Asleep.ne_of_runs hruns hW
  refine hnot ((hnotifies hW).mpr ?_)
  rw [← hcall] at hr
  rcases h.wf.doExit_reaps_cases hT hlive hexit hw hr with hbefore | ⟨hown, hz⟩ | hended
  · exact absurd hbefore (hno w W hW hun z)
  · have hexited := hr.2.1
    exact hwakes hruns z w W hown hz hW hun hexited
      ((h.wf.doExit_reaps_iff hT hlive hexit hw hown hz hexited).mp hr)
  · exact hended

/-- When the last thread of `init` exits there is no sleeper in its group. -/
theorem stepWakes_of_end (h : Asleep σ) (hruns : σ.runs t = true)
    (hexit : σ.procs.doExit t status = none) : StepWakes σ (.exit t status) := by
  intro _ z w W _ _ hW _ _ hinh
  exfalso
  obtain ⟨T, hT, hlive⟩ := map_eq_some_iff.mp (exiting_of_runs hruns)
  obtain ⟨hg, hlast⟩ : T.group = 1 ∧ σ.procs.lastThread t = true := by
    by_contra hcon
    refine h.wf.doExit_ne_none hT hlive (fun hg => ?_) hexit
    simpa using fun hlast => hcon ⟨hg, hlast⟩
  obtain ⟨G, hG⟩ := h.wf.group t T hT
  have hthreads : G.threads = [t] := by
    simpa [lastThread, groupOf, hT, hG] using hlast
  -- the heir is `init`, so the sleeper is a thread of `init`
  have hheir : σ.procs.heir t = 1 := by simp [heir, groupOf, hT, hG, hthreads]
  obtain ⟨I, hI, hgI, -⟩ := h.wf.init
  obtain ⟨X, hX, hex⟩ := map_eq_some_iff.mp (h.live w W hW)
  have hgroup : X.group = T.group := by
    have hgroups := hinh.groupOf
    rw [hheir] at hgroups
    simp only [groupOf, hI, hX, map_some, some.injEq] at hgroups
    rw [← hgroups, hgI, hg]
  have hmem := (h.wf.thread w X G hX (hgroup ▸ hG)).mpr hex
  rw [hthreads, List.mem_singleton] at hmem
  exact Asleep.ne_of_runs hruns hW hmem

end Exit

/-! ## Runs -/

/-- What a step is to do: leave no sleeper with a zombie that it has not been told of. -/
def StepAwake (σ : Sys) (op : Op) : Prop :=
  ∀ σ' answer, machine.step σ op = some (σ', answer) → NoLostWakeup σ'

theorem stepAwake_iff {σ : Sys} (h : Asleep σ) (hno : NoLostWakeup σ) (op : Op) :
    StepAwake σ op ↔ StepWakes σ op := by
  by_cases hop : ∃ t status, op = .exit t status
  · obtain ⟨t, status, rfl⟩ := hop
    by_cases hruns : σ.runs t = true
    · rcases hexit : σ.procs.doExit t status with _ | r
      · refine iff_of_true ?_ (stepWakes_of_end h hruns hexit)
        intro σ' answer hstep
        simp [machine_step, step, hruns, hexit] at hstep
      obtain ⟨s, g⟩ := r
      rw [← exit_noLostWakeup_iff h hno hruns hexit]
      have hstep : machine.step σ (.exit t status) = some (⟨s, notify σ.waits s g⟩, .done) := by
        simp [machine_step, step, hruns, hexit]
      unfold StepAwake
      rw [hstep]
      constructor
      · exact fun hawake => hawake _ _ rfl
      intro hno' σ' answer heq
      obtain ⟨rfl, -⟩ := Prod.mk.inj (some.inj heq)
      exact hno'
    · refine iff_of_true ?_ (fun hruns' => absurd hruns' hruns)
      intro σ' answer hstep
      simp [machine_step, step, hruns] at hstep
  · have hne : ∀ t status, op ≠ .exit t status := fun t status heq => hop ⟨t, status, heq⟩
    refine iff_of_true ?_ ?_
    · intro σ' answer hstep
      exact (step_moves hstep).noLostWakeup h hno hne
    cases op with
    | exit t status => exact absurd rfl (hne t status)
    | _ => trivial

/-- Sleepers stay alive. -/
theorem step_asleep {σ σ' : Sys} {op : Op} (h : Asleep σ) (hmoves : Moves σ op σ') : Asleep σ' := by
  refine ⟨step_wf h.wf hmoves, ?_⟩
  intro w W' hW'
  rcases hmoves.waits hW' with ⟨W, hW, -⟩ | ⟨hcall, -, hprocs⟩
  · have hlive := h.live w W hW
    by_cases hop : ∃ t status, op = .exit t status
    · obtain ⟨t, status, rfl⟩ := hop
      cases hmoves with
      | same => exact hlive
      | exit hruns hexit =>
        obtain ⟨T, hT, hTlive⟩ := map_eq_some_iff.mp (exiting_of_runs hruns)
        obtain ⟨X, hX, hex⟩ := map_eq_some_iff.mp hlive
        obtain ⟨X', hX', -, hex', -⟩ :=
          h.wf.doExit_put hT hTlive hexit (Asleep.ne_of_runs hruns hW) hX
        simp only [hX', map_some, hex', hex]
      | found hcall _ | leaves hcall | sleeps hcall _ _ =>
        rcases hcall with ⟨heq, -⟩ | ⟨_, _, heq, -⟩ <;> simp at heq
    · have hne : ∀ t status, op ≠ .exit t status := fun t status heq => hop ⟨t, status, heq⟩
      rw [(hmoves.row_of_live h.wf hne hlive).exiting]
      exact hlive
  · rw [hprocs]
    exact h.live_of_scans hcall

theorem init_asleep : Asleep init := ⟨init_wf, fun w W hW => by simp [init] at hW⟩

/-- **No wakeup is lost, but for inherited zombies.** In a run of the whole system from its first
process on, no step leaves a thread asleep in `do_wait`, not notified since it last looked, with a
zombie that its call would reap, exactly when every thread that exits notifies the sleepers that
inherit a zombie from it. -/
theorem run_awake_iff (ops : List Op) :
    machine.Along StepAwake init ops ↔ machine.Along StepWakes init ops :=
  Machine.along_congr (I := fun σ => Asleep σ ∧ NoLostWakeup σ)
    (fun _ op h => stepAwake_iff h.1 h.2 op)
    (fun _ op _ _ h hwakes hstep => ⟨step_asleep h.1 (step_moves hstep),
      (stepAwake_iff h.1 h.2 op).mpr hwakes _ _ hstep⟩)
    ⟨init_asleep, fun w W hW => by simp [init] at hW⟩ ops

/-- **An orphaned zombie.** `init` sleeps in `do_wait` with `P_ALL`. Process 3, a grandchild of
`init`, exits without having reaped its child 4. The zombie is now a child of `init`, but only
process 2, the parent of process 3, has been notified. -/
theorem exit_leaves_init_asleep :
    ∃ σ, machine.run init
        [.clone 1 2 false, .clone 2 3 false, .clone 3 4 false,
          .wait 1 ⟨.all, 0, ⟨false, false, true, false, false, false⟩⟩, .exit 4 0, .exit 3 0] =
        some (σ, [.done, .done, .done, .asleep, .done, .done]) ∧
      σ.waits 1 = some ⟨⟨.all, 0, ⟨false, false, true, false, false, false⟩⟩, false⟩ ∧
      σ.procs.isZombie 4 ∧ σ.procs.ownChild 1 4 ∧ ¬ NoLostWakeup σ := by
  refine ⟨_, rfl, rfl, ⟨_, rfl, rfl⟩, ⟨_, rfl, rfl, rfl⟩, ?_⟩
  intro hno
  exact hno 1 _ rfl rfl 4 ⟨⟨trivial, ⟨_, rfl, rfl, rfl⟩⟩, rfl, _, rfl, rfl⟩

end Sys

end Ish.Process
