import Ish.Memory.Spaces

set_option autoImplicit false

/-! # Address spaces that are copied eagerly

What the address spaces of `kernel/memory.c` are for, without sharing tricks: every page is a
cell of bytes of its own, and `fork` copies the bytes of every page into a new cell. Only a page
with `P_SHARED` is not copied; the copy then names the same cell. There are no reference counts
and there is no `P_COW`: a flag word given by a caller loses that bit.

This is a specification. The calls and what they show are those of `Memory/Spaces.lean`, and
`Memory/CopyOnWrite.lean` compares the two machines.
-/

namespace Ish.Memory

open Function Ish.Lib

variable {ι : Type} [DecidableEq ι]

/-- A mapped page: its cell and its flags. -/
structure EagerPage where
  cell : Nat
  flags : Flags
  deriving DecidableEq

structure Eager (ι : Type) where
  pages : ι × Nat → Option EagerPage
  cells : Nat → Nat → UInt8
  nextCell : Nat

namespace Eager

def init : Eager ι := { pages := fun _ => none, cells := fun _ _ => 0, nextCell := 0 }

/-- A page on a new cell with the given bytes. -/
def mapCell (r : Eager ι) (s : ι × Nat) (bytes : Nat → UInt8) (flags : Flags) : Eager ι where
  pages := update r.pages s (some { cell := r.nextCell, flags := clearCow flags })
  cells := update r.cells r.nextCell bytes
  nextCell := r.nextCell + 1

def unmapPage (r : Eager ι) (s : ι × Nat) : Eager ι :=
  { r with pages := update r.pages s none }

def setFlagsPage (r : Eager ι) (s : ι × Nat) (flags : Flags) : Eager ι :=
  match r.pages s with
  | none => r
  | some pg => { r with pages := update r.pages s (some { pg with flags := clearCow flags }) }

/-- The page of one address space copied into another: the same cell if it is shared, the same
bytes in a new cell otherwise. -/
def copyPage (r : Eager ι) (src dst : ι) (page : Nat) : Eager ι :=
  match r.pages (src, page) with
  | none => r
  | some pg =>
    if has pg.flags P_SHARED then
      { r with pages := update r.pages (dst, page) (some pg) }
    else r.mapCell (dst, page) (r.cells pg.cell) pg.flags

def allMapped (r : Eager ι) (i : ι) (start pages : Nat) : Bool :=
  (List.range' start pages).all (fun page => (r.pages (i, page)).isSome)

/-- The next mapped page above this one is willing to grow down. -/
def growsDown (r : Eager ι) (i : ι) (page : Nat) : Bool :=
  let p := growScan (fun q => (r.pages (i, q)).isSome) (page + 1)
  if p < MEM_PAGES then
    match r.pages (i, p) with
    | none => false
    | some pg => has pg.flags P_GROWSDOWN
  else false

/-- An access to an unmapped page maps a page of zeros if the mapping above grows down. -/
def grow (r : Eager ι) (s : ι × Nat) : Eager ι :=
  if (r.pages s).isSome = false ∧ r.growsDown s.1 s.2 = true then
    r.mapCell s (fun _ => 0) (P_WRITE ||| P_GROWSDOWN ||| P_ANONYMOUS)
  else r

def step (r : Eager ι) : Op ι → Eager ι × Out
  | .mapNothing i rg flags =>
    if rg.pages = 0 then (r, .ret 0)
    else if rg.pages * PAGE_SIZE % 2 ^ 32 = 0 then (r, .ret EINVAL)
    else
      (foldUp (fun r page => r.mapCell (i, page) (fun _ => 0) (flags ||| P_ANONYMOUS))
        r rg.start rg.pages, .ret 0)
  | .unmap i rg =>
    if r.allMapped i rg.start rg.pages then
      (foldUp (fun r page => r.unmapPage (i, page)) r rg.start rg.pages, .ret 0)
    else (r, .ret (-1))
  | .unmapAlways i rg =>
    (foldUp (fun r page => r.unmapPage (i, page)) r rg.start rg.pages, .ret 0)
  | .setFlags i rg flags =>
    if r.allMapped i rg.start rg.pages then
      (foldUp (fun r page => r.setFlagsPage (i, page) flags) r rg.start rg.pages, .ret 0)
    else (r, .ret ENOMEM)
  | .copyOnWrite src dst _ =>
    (foldUp (fun r page => r.copyPage src dst page) r 0 MEM_PAGES, .ret 0)
  | .read i addr =>
    let r := r.grow (i, PAGE addr)
    match r.pages (i, PAGE addr) with
    | none => (r, .segv)
    | some pg => (r, .value (r.cells pg.cell (PGOFFSET addr)))
  | .write i addr v =>
    let r := r.grow (i, PAGE addr)
    match r.pages (i, PAGE addr) with
    | none => (r, .segv)
    | some pg =>
      if has pg.flags P_WRITE then
        let cell := update (r.cells pg.cell) (PGOFFSET addr) v
        ({ r with cells := update r.cells pg.cell cell }, .stored)
      else (r, .segv)

end Eager

/-- The machine of calls on eagerly copied address spaces. -/
def eagerMachine (ι : Type) [DecidableEq ι] : Machine (Eager ι) (Op ι) Out where
  step r op := some (r.step op)

end Ish.Memory
