import Ish.Fakefs.Ops

set_option autoImplicit false

/-! # An open and a removal of the same path

One thread opens a path with `O_CREAT` while another unlinks or renames it. The host calls and
the sections of the database lock interleave: `fakefs_open` makes its host call before it takes
the lock, the other two make theirs while they hold it.

Between the host call and the transaction of the open, the file may be there without a row, and
the open counts on it to stay. The other thread's host call must not take it away in that gap.
-/

namespace Ish.Fakefs

open Option Function Ish.Lib Machine

variable {p : Path} {db : Db} {host : HostTree}

/-- Where the opening thread is. -/
inductive OpenPc where
  | start
  /-- The host file is open and the transaction has not begun. -/
  | opened
  | returned (out : FsOut)
deriving DecidableEq

/-- What the other thread does with the path. -/
inductive OtherCall where
  | unlink
  | renameFrom (dst : Path)
  | renameTo (src : Path)

/-- Where the other thread is; `saved` is the database a rollback would restore. -/
inductive OtherPc where
  | start
  | begun (saved : Db)
  | called (saved : Db) (ok : Bool)
  /-- Committed; `inode_check_orphaned` is still to come. -/
  | removed (ino : Nat)
  | returned
  | died

/-- The database lock is held from `db_begin_write` to `db_commit` or `db_rollback`. -/
def OtherPc.locked : OtherPc → Bool
  | .begun _ => true
  | .called _ _ => true
  | _ => false

structure Race where
  mount : Mount
  opener : OpenPc
  other : OtherPc

inductive RaceStep where
  | openHost (ok : Bool)
  | openDb
  | otherBegin
  | otherHost (ok : Bool)
  | otherEnd
  | otherCheck (held : Bool)

/-- What the other thread does to the database before its host call. -/
def OtherCall.beginDb (p : Path) : OtherCall → Db → Db
  | .unlink, db => db
  | .renameFrom dst, db => db.pathRename (encode p) (encode dst)
  | .renameTo src, db => db.pathRename (encode src) (encode p)

def OtherCall.hostCall (p : Path) : OtherCall → HostTree → Option HostTree
  | .unlink, h => h.unlink p
  | .renameFrom dst, h => h.rename p dst
  | .renameTo src, h => h.rename src p

namespace Race

variable (rowids : Rowids) (fresh : Fresh Nat) (cred : Cred) (p : Path) (flags : OpenFlags)
  (mode : UInt32) (call : OtherCall) (s : Race)

def openHost (ok : Bool) : Option Race :=
  match s.opener with
  | .start =>
    match if ok then s.mount.host.open_ fresh p true flags.excl else none with
    | none => some { s with opener := .returned .failed }
    | some host => some { s with mount := { s.mount with host := host }, opener := .opened }
  | _ => none

def openDb : Option Race :=
  match s.opener, s.other.locked with
  | .opened, false =>
    let db := openRow rowids cred s.mount.db p { flags with creat := true } mode
    let inode := db.pathGetInode (encode p)
    some { s with
      mount := { s.mount with db := db }
      opener := .returned (if inode = 0 then .noEntry else .fd inode) }
  | _, _ => none

def otherBegin : Option Race :=
  match s.other with
  | .start =>
    some { s with
      mount := { s.mount with db := call.beginDb p s.mount.db }
      other := .begun s.mount.db }
  | _ => none

def otherHost (ok : Bool) : Option Race :=
  match s.other with
  | .begun saved =>
    match if ok then call.hostCall p s.mount.host else none with
    | none => some { s with other := .called saved false }
    | some host =>
      some { s with mount := { s.mount with host := host }, other := .called saved true }
  | _ => none

def otherEnd : Option Race :=
  match s.other with
  | .called saved false => some { s with mount := { s.mount with db := saved }, other := .returned }
  | .called _ true =>
    match call with
    | .unlink =>
      match s.mount.db.pathUnlink (encode p) with
      | none => some { s with other := .died }
      | some (db, ino) => some { s with mount := { s.mount with db := db }, other := .removed ino }
    | _ => some { s with other := .returned }
  | _ => none

def otherCheck (held : Bool) : Option Race :=
  match s.other with
  | .removed ino =>
    some { s with
      mount := { s.mount with
        db := if held then s.mount.db else s.mount.db.tryCleanupInode ino }
      other := .returned }
  | _ => none

def step : RaceStep → Option Race
  | .openHost ok => openHost fresh p flags s ok
  | .openDb => openDb rowids cred p flags mode s
  | .otherBegin => otherBegin p call s
  | .otherHost ok => otherHost p call s ok
  | .otherEnd => otherEnd p call s
  | .otherCheck held => otherCheck s held

end Race

def raceMachine (rowids : Rowids) (fresh : Fresh Nat) (cred : Cred) (p : Path) (flags : OpenFlags)
    (mode : UInt32) (call : OtherCall) : Machine Race RaceStep Unit :=
  { step := fun s a =>
      (Race.step rowids fresh cred p flags mode call s a).map (fun s' => (s', ())) }

def Race.init (m : Mount) : Race := { mount := m, opener := .start, other := .start }

/-- `path_unlink` has not died, and when both calls have returned the table has a row for the path
exactly when the host has a file there. -/
def Race.Agrees (p : Path) (s : Race) : Prop :=
  s.other ≠ .died ∧ ∀ out, s.opener = .returned out → s.other = .returned →
    (encode p ∈ s.mount.db.paths ↔ s.mount.host.file p ≠ none)

/-- The other thread's host call does not take the file away between the two halves of the open,
and does not rename it to another link of itself. -/
def Race.Safe (p : Path) (call : OtherCall) (s : Race) : RaceStep → Prop
  | .otherHost ok =>
    match call with
    | .unlink => ok = true → s.mount.host.unlink p ≠ none → s.opener ≠ .opened
    | .renameFrom dst =>
      ok = true → s.mount.host.rename p dst ≠ none → p ≠ dst →
        s.opener ≠ .opened ∧ s.mount.host.ino p ≠ s.mount.host.ino dst
    | .renameTo _ => True
  | _ => True

/-! ## The invariant -/

/-- Row and file at the path, as far as the open has come. -/
def AtPath (p : Path) (opener : OpenPc) (db : Db) (host : HostTree) : Prop :=
  (opener = .opened → host.file p ≠ none) ∧
    (opener ≠ .opened → (db.inode p = none ↔ host.file p = none))

/-- Rows and files everywhere else. -/
def OffPath (p : Path) (db : Db) (host : HostTree) : Prop :=
  ∀ q, q ≠ p → (db.inode q = none ↔ host.file q = none)

/-- After the host call of an unlink: the row is still there, the file is not, unless it was
created anew. -/
def Unlinked (p : Path) (opener : OpenPc) (db : Db) (host : HostTree) : Prop :=
  db.inode p ≠ none ∧ (opener = .opened → host.file p ≠ none) ∧
    (opener ≠ .opened → host.file p = none)

/-- What holds of the two stores at each place of the other thread. -/
def OtherPc.Stores (p : Path) (call : OtherCall) (opener : OpenPc) (m : Mount) : OtherPc → Prop
  | .start => OffPath p m.db m.host ∧ AtPath p opener m.db m.host
  | .begun saved =>
    saved.Ok ∧ m.db = call.beginDb p saved ∧ OffPath p saved m.host ∧
      AtPath p opener saved m.host
  | .called saved false => saved.Ok ∧ AtPath p opener saved m.host
  | .called _ true =>
    match call with
    | .unlink => Unlinked p opener m.db m.host
    | _ => AtPath p opener m.db m.host
  | .removed _ => AtPath p opener m.db m.host
  | .returned => AtPath p opener m.db m.host
  | .died => False

structure Race.Inv (p : Path) (call : OtherCall) (s : Race) : Prop where
  db : s.mount.db.Ok
  host : Posix s.mount.host.file
  stores : s.other.Stores p call s.opener s.mount

theorem Race.inv_init (p : Path) (call : OtherCall) {m : Mount} (h : m.Consistent) :
    (Race.init m).Inv p call := by
  refine ⟨h.db, h.host, fun q _ => h.inode_eq_none_iff q, ?_, fun _ => h.inode_eq_none_iff p⟩
  intro hopened
  cases hopened

theorem Race.Inv.agrees {call : OtherCall} {s : Race} (h : s.Inv p call) : s.Agrees p := by
  obtain ⟨mount, opener, other⟩ := s
  refine ⟨?_, ?_⟩
  · intro hdied
    have hs := h.stores
    rw [hdied] at hs
    exact hs
  intro out hout hret
  have hs := h.stores
  rw [hret] at hs
  have hat := hs.2 (by rw [hout]; exact OpenPc.noConfusion)
  rw [ne_eq, ← hat, Db.inode, AList.lookup_eq_none, not_not]

/-! ## The steps of the opening thread -/

theorem open_effect {fresh : Fresh Nat} {h h' : HostTree} {excl : Bool} (hP : Posix h.file)
    (ho : h.open_ fresh p true excl = some h') :
    Posix h'.file ∧ h'.file p ≠ none ∧ ∀ q, q ≠ p → h'.file q = h.file q := by
  rcases HostTree.open_spec hP ho with ⟨rfl, hfile⟩ | ⟨-, ⟨i, ha⟩, hP'⟩
  · exact ⟨hP, hfile, fun _ _ => rfl⟩
  refine ⟨hP', ?_, ?_⟩
  · rw [ha.file_eq, update_self]
    exact some_ne_none _
  intro q hq
  rw [ha.file_eq, update_of_ne hq]

theorem openRow_effect {rowids : Rowids} {cred : Cred} {flags : OpenFlags} {mode : UInt32}
    (h : db.Ok) : (openRow rowids cred db p { flags with creat := true } mode).Ok ∧
      (openRow rowids cred db p { flags with creat := true } mode).inode p ≠ none ∧
      ∀ q, q ≠ p →
        (openRow rowids cred db p { flags with creat := true } mode).inode q = db.inode q := by
  unfold openRow
  split
  · obtain ⟨hok, hinode, -⟩ := Db.pathCreate_spec rowids h p (cred.stat (mode ||| S_IFREG) 0)
    refine ⟨hok, ?_, ?_⟩
    · rw [hinode, update_self]
      exact some_ne_none _
    intro q hq
    rw [hinode, update_of_ne hq]
  rename_i hrow
  refine ⟨h, ?_, fun _ _ => rfl⟩
  intro hnone
  exact hrow ⟨rfl, Db.pathGetInode_of_none hnone⟩

/-- A thread that has not opened the file may give up. -/
theorem AtPath.giveUp {out : FsOut} (h : AtPath p .start db host) :
    AtPath p (.returned out) db host := by
  refine ⟨?_, fun _ => h.2 OpenPc.noConfusion⟩
  intro hopened
  cases hopened

theorem AtPath.opened (db : Db) (h : host.file p ≠ none) : AtPath p .opened db host :=
  ⟨fun _ => h, fun hne => absurd rfl hne⟩

theorem AtPath.both {opener : OpenPc} (hrow : db.inode p ≠ none) (hfile : host.file p ≠ none) :
    AtPath p opener db host :=
  ⟨fun _ => hfile, fun _ => ⟨fun h => absurd h hrow, fun h => absurd h hfile⟩⟩

namespace Race

variable {rowids : Rowids} {fresh : Fresh Nat} {cred : Cred} {p : Path} {flags : OpenFlags}
  {mode : UInt32} {call : OtherCall} {s s' : Race}
variable {m : Mount} {host host' : HostTree} {ok : Bool} {saved : Db} {opener : OpenPc}

theorem stores_giveUp {out : FsOut} (o : OtherPc) (h : o.Stores p call .start m) :
    o.Stores p call (.returned out) m := by
  cases o with
  | start => exact ⟨h.1, h.2.giveUp⟩
  | begun saved => exact ⟨h.1, h.2.1, h.2.2.1, h.2.2.2.giveUp⟩
  | called saved ok =>
    cases ok with
    | false => exact ⟨h.1, h.2.giveUp⟩
    | true =>
      cases call with
      | unlink =>
        refine ⟨h.1, ?_, fun _ => h.2.2 OpenPc.noConfusion⟩
        intro hopened
        cases hopened
      | renameFrom dst => exact .giveUp h
      | renameTo src => exact .giveUp h
  | removed ino => exact .giveUp h
  | returned => exact .giveUp h
  | died => exact h

theorem stores_opened (o : OtherPc) (h : o.Stores p call .start m) (hfile : host.file p ≠ none)
    (hoff : ∀ q, q ≠ p → host.file q = m.host.file q) :
    o.Stores p call .opened { m with host := host } := by
  have hkeep : ∀ {db : Db}, OffPath p db m.host → OffPath p db host := by
    intro db hdb q hq
    rw [hoff q hq]
    exact hdb q hq
  cases o with
  | start => exact ⟨hkeep h.1, .opened _ hfile⟩
  | begun saved => exact ⟨h.1, h.2.1, hkeep h.2.2.1, .opened _ hfile⟩
  | called saved ok =>
    cases ok with
    | false => exact ⟨h.1, .opened _ hfile⟩
    | true =>
      cases call with
      | unlink => exact ⟨h.1, fun _ => hfile, fun hne => absurd rfl hne⟩
      | renameFrom dst | renameTo src => exact .opened _ hfile
  | removed ino | returned => exact .opened _ hfile
  | died => exact h

theorem Inv.openHost (h : s.Inv p call) (hs : openHost fresh p flags s ok = some s') :
    s'.Inv p call := by
  unfold Race.openHost at hs
  split at hs
  · rename_i hstart
    have hst := h.stores
    rw [hstart] at hst
    split at hs
    · cases hs
      exact ⟨h.db, h.host, stores_giveUp _ hst⟩
    rename_i host hopen
    obtain rfl := some.inj hs
    have hcall : s.mount.host.open_ fresh p true flags.excl = some host := by
      split at hopen
      · exact hopen
      · cases hopen
    obtain ⟨hP, hfile, hoff⟩ := open_effect h.host hcall
    exact ⟨h.db, hP, stores_opened _ hst hfile hoff⟩
  · cases hs

/-- The row is made only while the other thread is outside its transaction. -/
theorem Inv.openDb (h : s.Inv p call) (hs : openDb rowids cred p flags mode s = some s') :
    s'.Inv p call := by
  unfold Race.openDb at hs
  split at hs
  · rename_i hopened hfree
    obtain rfl := some.inj hs
    have hrow : (openRow rowids cred s.mount.db p { flags with creat := true } mode).Ok ∧ _ ∧ _ :=
      openRow_effect h.db
    obtain ⟨hdb, hinode, hoff⟩ := hrow
    have hst := h.stores
    rw [hopened] at hst
    refine ⟨hdb, h.host, ?_⟩
    cases hother : s.other with
    | start =>
      rw [hother] at hst
      refine ⟨?_, .both hinode (hst.2.1 rfl)⟩
      intro q hq
      rw [hoff q hq]
      exact hst.1 q hq
    | begun saved | called saved ok =>
      rw [hother] at hfree
      cases hfree
    | removed ino | returned =>
      rw [hother] at hst
      exact .both hinode (hst.1 rfl)
    | died =>
      rw [hother] at hst
      exact hst
  · cases hs

/-! ## The steps of the other thread -/

theorem Inv.otherBegin (h : s.Inv p call) (hs : otherBegin p call s = some s') : s'.Inv p call := by
  unfold Race.otherBegin at hs
  split at hs
  · rename_i hstart
    obtain rfl := some.inj hs
    have hst := h.stores
    rw [hstart] at hst
    refine ⟨?_, h.host, h.db, rfl, hst.1, hst.2⟩
    cases call with
    | unlink => exact h.db
    | renameFrom dst => exact h.db.pathRename p dst
    | renameTo src => exact h.db.pathRename src p
  · cases hs

/-- Renaming the path to itself changes nothing on either side. -/
theorem atPath_rename_self (hdb : saved.Ok) (hP : Posix host.file)
    (hat : AtPath p opener saved host) (hr : host.rename p p = some host') :
    Posix host'.file ∧ AtPath p opener (saved.pathRename (encode p) (encode p)) host' := by
  rcases HostTree.rename_spec hP hr with ⟨rfl, -, -⟩ | ⟨hne, -⟩
  · refine ⟨hP, hat.1, ?_⟩
    rw [Db.pathRename_self hdb p]
    exact hat.2
  · exact absurd rfl hne

/-- Renaming the path away, outside the gap. -/
theorem atPath_renameFrom {dst : Path} (hdb : saved.Ok) (hP : Posix host.file)
    (hoff : OffPath p saved host) (hat : AtPath p opener saved host)
    (hr : host.rename p dst = some host') (hgap : opener ≠ .opened)
    (hlinks : host.ino p ≠ host.ino dst) :
    Posix host'.file ∧ AtPath p opener (saved.pathRename (encode p) (encode dst)) host' := by
  rcases HostTree.rename_spec hP hr with ⟨-, -, hsame⟩ | ⟨-, hm, hfile, hP'⟩
  · exact absurd hsame hlinks
  have hrow : saved.inode p ≠ none := fun hnone => hm.source ((hat.2 hgap).mp hnone)
  have hleaf : ∀ r, r ≠ [] → saved.inode (dst ++ r) = none := by
    intro r hr'
    refine (hoff (dst ++ r) ?_).mpr (hm.leaf r hr')
    intro heq
    exact hm.apart.notBelow (heq ▸ List.prefix_append dst r)
  have hgone : movedFrom p dst p = none := by
    rw [movedFrom, if_neg hm.apart.notBelow, if_pos List.prefix_rfl]
  refine ⟨hP', fun hopened => absurd hopened hgap, fun _ => ?_⟩
  rw [Db.pathRename_spec hdb hm.apart hrow hleaf, hfile]
  simp only [hgone, bind_none]

/-- Renaming another path over this one, which is safe at any time: the row arrives together
with the file. -/
theorem atPath_renameTo {src : Path} (hdb : saved.Ok) (hP : Posix host.file)
    (hoff : OffPath p saved host) (hne : src ≠ p) (hr : host.rename src p = some host') :
    Posix host'.file ∧ AtPath p opener (saved.pathRename (encode src) (encode p)) host' := by
  have harrives : Apart src p → host.file src ≠ none →
      (∀ r, r ≠ [] → host.file (p ++ r) = none) →
      (saved.pathRename (encode src) (encode p)).inode p ≠ none := by
    intro hapart hsrc hleaf
    have hrow : saved.inode src ≠ none := fun hnone => hsrc ((hoff src hne).mp hnone)
    have hleaf' : ∀ r, r ≠ [] → saved.inode (p ++ r) = none := by
      intro r hr'
      refine (hoff (p ++ r) ?_).mpr (hleaf r hr')
      intro heq
      exact hr' (List.append_right_eq_self.mp heq)
    rw [Db.pathRename_spec hdb hapart hrow hleaf']
    simpa only [movedFrom_dst, bind_some] using hrow
  rcases HostTree.rename_spec hP hr with ⟨rfl, hsrc, hsame⟩ | ⟨-, hm, hfile, hP'⟩
  · have hsrc' : host'.file src ≠ none :=
      fun hnone => hsrc ((Mount.ino_eq_none_iff host' src).mpr hnone)
    obtain ⟨hapart, hleaf⟩ := apart_of_links (s := ⟨saved, host'⟩) hP hne hsrc' hsame
    refine ⟨hP, .both (harrives hapart hsrc' hleaf) ?_⟩
    intro hnone
    exact hsrc (hsame.trans ((Mount.ino_eq_none_iff host' p).mpr hnone))
  refine ⟨hP', .both (harrives hm.apart hm.source hm.leaf) ?_⟩
  rw [hfile]
  simpa only [movedFrom_dst, bind_some] using hm.source

/-- Removing the path, outside the gap: the row that goes next is there. -/
theorem unlinked_of_unlink {db : Db} (hP : Posix host.file) (hat : AtPath p opener db host)
    (hu : host.unlink p = some host') (hgap : opener ≠ .opened) :
    Posix host'.file ∧ Unlinked p opener db host' := by
  obtain ⟨hfile, hkept, hP'⟩ := HostTree.unlink_spec hP hu
  refine ⟨hP', ?_, fun hopened => absurd hopened hgap, ?_⟩
  · exact fun hnone => hfile ((hat.2 hgap).mp hnone)
  intro _
  rw [hkept]
  simp only [keptFrom, if_pos, bind_none]

theorem Inv.otherHost (h : s.Inv p call) (hsafe : s.Safe p call (.otherHost ok))
    (hs : otherHost p call s ok = some s') : s'.Inv p call := by
  unfold Race.otherHost at hs
  split at hs
  · rename_i saved hbegun
    have hst := h.stores
    rw [hbegun] at hst
    obtain ⟨hsaved, hdb, hoff, hat⟩ := hst
    split at hs
    · cases hs
      exact ⟨h.db, h.host, hsaved, hat⟩
    rename_i host hcall
    obtain rfl := some.inj hs
    have hok : ok = true ∧ call.hostCall p s.mount.host = some host := by
      split at hcall
      · exact ⟨by assumption, hcall⟩
      · cases hcall
    obtain ⟨hok, hcall⟩ := hok
    have hdone : call.hostCall p s.mount.host ≠ none := by
      rw [hcall]
      exact some_ne_none host
    suffices hboth : Posix host.file ∧
        (OtherPc.called saved true).Stores p call s.opener { s.mount with host := host } from
      ⟨h.db, hboth.1, hboth.2⟩
    cases call with
    | unlink =>
      have hat' : AtPath p s.opener s.mount.db s.mount.host := by
        rw [hdb]
        exact hat
      exact unlinked_of_unlink h.host hat' hcall (hsafe hok hdone)
    | renameFrom dst =>
      show Posix host.file ∧ AtPath p s.opener s.mount.db host
      rw [hdb]
      by_cases hself : p = dst
      · subst hself
        exact atPath_rename_self hsaved h.host hat hcall
      obtain ⟨hgap, hlinks⟩ := hsafe hok hdone hself
      exact atPath_renameFrom hsaved h.host hoff hat hcall hgap hlinks
    | renameTo src =>
      show Posix host.file ∧ AtPath p s.opener s.mount.db host
      rw [hdb]
      by_cases hself : src = p
      · subst hself
        exact atPath_rename_self hsaved h.host hat hcall
      · exact atPath_renameTo hsaved h.host hoff hself hcall
  · cases hs

theorem Inv.otherEnd (h : s.Inv p call) (hs : otherEnd p call s = some s') : s'.Inv p call := by
  unfold Race.otherEnd at hs
  split at hs
  · rename_i saved hcalled
    obtain rfl := some.inj hs
    have hst := h.stores
    rw [hcalled] at hst
    exact ⟨hst.1, h.host, hst.2⟩
  · rename_i saved hcalled
    have hst := h.stores
    rw [hcalled] at hst
    cases call with
    | unlink =>
      obtain ⟨hrow, hopened, hgone⟩ := hst
      obtain ⟨db, ino, hunlink, hdb, hinode⟩ := Db.pathUnlink_spec h.db hrow
      simp only [hunlink, some.injEq] at hs
      subst hs
      refine ⟨hdb, h.host, hopened, ?_⟩
      intro hgap
      have hnone : db.inode p = none := by
        rw [hinode]
        simp only [keptFrom, if_pos, bind_none]
      exact ⟨fun _ => hgone hgap, fun _ => hnone⟩
    | renameFrom dst | renameTo src =>
      cases hs
      exact ⟨h.db, h.host, hst⟩
  · cases hs

theorem Inv.otherCheck (h : s.Inv p call) {held : Bool} (hs : otherCheck s held = some s') :
    s'.Inv p call := by
  unfold Race.otherCheck at hs
  split at hs
  · rename_i ino hremoved
    obtain rfl := some.inj hs
    have hst := h.stores
    rw [hremoved] at hst
    cases held with
    | true => exact ⟨h.db, h.host, hst⟩
    | false =>
      refine ⟨h.db.tryCleanupInode ino, h.host, hst.1, ?_⟩
      show s.opener ≠ .opened →
        ((s.mount.db.tryCleanupInode ino).inode p = none ↔ s.mount.host.file p = none)
      rw [Db.tryCleanupInode_inode]
      exact hst.2
  · cases hs

theorem Inv.step (h : s.Inv p call) {a : RaceStep} {o : Unit} (hsafe : s.Safe p call a)
    (hs : (raceMachine rowids fresh cred p flags mode call).step s a = some (s', o)) :
    s'.Inv p call := by
  obtain ⟨s1, hs1, heq⟩ := map_eq_some_iff.mp hs
  obtain ⟨rfl, -⟩ := Prod.mk.inj heq
  cases a with
  | openHost ok => exact h.openHost hs1
  | openDb => exact h.openDb hs1
  | otherBegin => exact h.otherBegin hs1
  | otherHost ok => exact h.otherHost hsafe hs1
  | otherEnd => exact h.otherEnd hs1
  | otherCheck held => exact h.otherCheck hs1

end Race

/-! ## All interleavings -/

/-- **An open against an unlink or a rename.** In every interleaving in which the host call of
the other thread keeps out of the gap, no `die()` is reached, and when both calls have returned
the table has a row for the path exactly when the host has a file there. -/
theorem open_race_agrees (rowids : Rowids) (fresh : Fresh Nat) (cred : Cred) (p : Path)
    (flags : OpenFlags) (mode : UInt32) (call : OtherCall) (m : Mount) (h : m.Consistent)
    (steps : List RaceStep) (s : Race) (os : List Unit)
    (hrun : (raceMachine rowids fresh cred p flags mode call).run (.init m) steps
      = some (s, os))
    (hsafe : (raceMachine rowids fresh cred p flags mode call).Along (Race.Safe p call)
      (.init m) steps) : s.Agrees p := by
  have hinv : s.Inv p call :=
    run_inv (I := Race.Inv p call) (fun _ _ _ _ hI hP hstep => hI.step hP hstep)
      (Race.inv_init p call h) hsafe hrun
  exact hinv.agrees

/-- The host file is created, removed by the other thread, and has no row to remove. -/
theorem unlink_in_the_gap_dies :
    rootMount.Consistent ∧
      ∃ s os, (raceMachine Rowids.succMax Rowids.succMax.toFresh ⟨0, 0⟩ [nameA] ⟨true, false⟩ 420
          .unlink).run (.init rootMount)
            [.openHost true, .otherBegin, .otherHost true, .otherEnd] = some (s, os) ∧
        s.other = .died ∧ ¬ s.Agrees [nameA] := by
  refine ⟨rootMount_consistent, _, _, rfl, rfl, ?_⟩
  intro hagrees
  exact hagrees.1 rfl

/-- The open as a whole, then the unlink as a whole. -/
theorem open_race_agrees_inTurn :
    ∃ s os, (raceMachine Rowids.succMax Rowids.succMax.toFresh ⟨0, 0⟩ [nameA] ⟨true, false⟩ 420
        .unlink).run (.init rootMount)
          [.openHost true, .openDb, .otherBegin, .otherHost true, .otherEnd, .otherCheck false]
        = some (s, os) ∧
      s.opener = .returned (.fd 2) ∧ s.other = .returned ∧ s.Agrees [nameA] := by
  refine ⟨_, _, rfl, by decide +kernel, rfl, ?_⟩
  refine open_race_agrees Rowids.succMax Rowids.succMax.toFresh ⟨0, 0⟩ [nameA] ⟨true, false⟩ 420
    .unlink rootMount rootMount_consistent
    [.openHost true, .openDb, .otherBegin, .otherHost true, .otherEnd, .otherCheck false] _ _ rfl ?_
  rw [along_cons_of_step rfl, along_cons_of_step rfl,
    along_cons_of_step rfl, along_cons_of_step rfl,
    along_cons_of_step rfl, along_cons_of_step rfl]
  refine ⟨trivial, trivial, trivial, ?_, trivial, trivial, trivial⟩
  intro _ _ hopened
  cases hopened

end Ish.Fakefs
