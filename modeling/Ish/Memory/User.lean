import Ish.Memory.Threads

set_option autoImplicit false

/-! # Copying from and to guest memory

`__user_read_task`, `__user_write_task` and `user_read_string` of `kernel/user.c`. The first two
walk over the pages of a range and copy a chunk from each. The end of the range is a 64-bit number,
while the position and the end of a chunk are guest addresses of 32 bits, and the end of the last
page is 0. So a walk that gets to the last page goes on over the whole address space, and only a
page that `mem_ptr` refuses ends it. A range whose end does not fit in 64 bits is not copied at all.

`user_read_string` copies byte by byte and stops after `max` bytes whether or not it has seen a NUL.
-/

namespace Ish.Memory

open List Function

/-- What the two loops work on: the guest memory, the host buffer, and the bytes that have been
copied, each with its guest address and its offset in the buffer. -/
structure Copying where
  host : Host
  mem : Mem
  buf : Nat → UInt8
  moved : List (Nat × Nat)

/-- The bytes of a chunk of length `len`. -/
def span (p off len : Nat) : List (Nat × Nat) := (range len).map fun j => (p + j, off + j)

/-- `memcpy` of a chunk, from the guest for a read and to it otherwise. The buffer of the caller
starts at `base`. -/
def copyChunk (type : Access) (base : Nat) (ptr : HostPtr) (p off len : Nat) (s : Copying) :
    Copying :=
  if type = .read then
    { s with
      host := s.host.touch ptr
      buf := fun k =>
        if base + off ≤ k ∧ k < base + off + len then
          s.host.load { ptr with off := ptr.off + (k - (base + off)) }
        else s.buf k
      moved := s.moved ++ span p off len }
  else
    { s with
      host := { s.host.touch ptr with
        bytes := update s.host.bytes ptr.map fun k =>
          if ptr.off ≤ k ∧ k < ptr.off + len then s.buf (base + off + (k - ptr.off))
          else s.host.bytes ptr.map k }
      moved := s.moved ++ span p off len }

/-- `addr + count`, computed in `size_t`. -/
def rangeEnd (addr : Addr) (count : Nat) : Nat := (addr.toNat + count) % 2 ^ 64

/-- The end of the chunk at `p`, an `addr_t`. -/
def chunkEnd (addr : Addr) (count p : Nat) : Nat :=
  let chunkEnd := (p / PAGE_SIZE + 1) * PAGE_SIZE % 2 ^ 32
  if rangeEnd addr count < chunkEnd then rangeEnd addr count % 2 ^ 32 else chunkEnd

/-- `mem_ptr` at position `p`. -/
def look (type : Access) (p : Nat) (s : Copying) : Copying × Option HostPtr :=
  let r := memPtr .ok .ok s.host s.mem (BitVec.ofNat 32 p) type
  ({ s with host := r.1, mem := r.2.1 }, r.2.2)

/-- The rest of a turn at position `p`. The differences of addresses are computed in 32 bits. -/
def copyTurn (type : Access) (addr : Addr) (base count p : Nat) (ptr : HostPtr) (s : Copying) :
    Copying :=
  copyChunk type base ptr p ((p + 2 ^ 32 - addr.toNat) % 2 ^ 32)
    ((chunkEnd addr count p + 2 ^ 32 - p) % 2 ^ 32) s

/-- The loop of `__user_read_task` and `__user_write_task` at position `p`. -/
def copyTask (type : Access) (addr : Addr) (base count : Nat) :
    Nat → Nat → Copying → Option (Nat × Copying)
  | 0, _, _ => none
  | fuel + 1, p, s =>
    if p < rangeEnd addr count then
      match look type p s with
      | (s', none) => some (1, s')
      | (s', some ptr) =>
        copyTask type addr base count fuel (chunkEnd addr count p)
          (copyTurn type addr base count p ptr s')
    else some (0, s)

/-- The guest memory from `p` on and the buffer from `base` on agree for `len` bytes. A read changes
nothing else of the buffer and nothing of the memory, a write nothing else of the memory and nothing
of the buffer. -/
structure Copied (type : Access) (p base len : Nat) (s s' : Copying) : Prop where
  bytes : ∀ j < len, view s'.host s'.mem (BitVec.ofNat 32 (p + j)) = some (s'.buf (base + j))
  buf : ∀ k, (type = .read → k < base ∨ base + len ≤ k) → s'.buf k = s.buf k
  memory : ∀ a v, (type ≠ .read → a.toNat < p ∨ p + len ≤ a.toNat) →
    view s.host s.mem a = some v → view s'.host s'.mem a = some v

section MemPtr

variable {ι : Type} [Fintype ι] [DecidableEq ι] {w : World ι} {i : ι} {h : Host} {m : Mem}

end MemPtr

/-! ## One chunk -/

section Chunk

variable {ι : Type} [Fintype ι] [DecidableEq ι] {w : World ι} {i : ι} {type : Access}
variable {p base len : Nat} {s s' s'' : Copying} {ptr : HostPtr}

/-- The memory that is copied from or to is that of one of some address spaces. -/
def Copying.Ok (w : World ι) (i : ι) (s : Copying) : Prop :=
  HeapOk (w.put i (s.host, s.mem)).entry s.host

theorem Copied.refl (type : Access) (p base : Nat) (s : Copying) : Copied type p base 0 s s :=
  ⟨fun j hj => absurd hj (Nat.not_lt_zero j), fun _ _ => rfl, fun _ _ _ hv => hv⟩

/-- A copy goes on where the one before has ended. -/
theorem Copied.trans {len' : Nat} (h : Copied type p base len s s')
    (h' : Copied type (p + len) (base + len) len' s' s'') (hle : p + len + len' ≤ 2 ^ 32) :
    Copied type p base (len + len') s s'' := by
  refine ⟨fun j hj => ?_, fun k hk => ?_, fun a v ha hv => ?_⟩
  · by_cases hjl : j < len
    · have hbuf : s''.buf (base + j) = s'.buf (base + j) := h'.buf _ fun _ => by omega
      rw [hbuf]
      refine h'.memory _ _ (fun _ => .inl ?_) (h.bytes j hjl)
      rw [BitVec.toNat_ofNat, Nat.mod_eq_of_lt (by omega)]
      omega
    · have hj' : len + (j - len) = j := by omega
      have hbyte := h'.bytes (j - len) (by omega)
      rwa [Nat.add_assoc, Nat.add_assoc, hj'] at hbyte
  · rw [h'.buf k fun ht => by have := hk ht; omega]
    exact h.buf k fun ht => by have := hk ht; omega
  · refine h'.memory a v (fun ht => ?_) (h.memory a v (fun ht => ?_) hv)
    · have := ha ht
      omega
    · have := ha ht
      omega

/-- Memory that a page table points to is there. -/
theorem Copying.Ok.touch {a : Addr} (H : s.Ok w i)
    (hptr : memPtrNofault s.host s.mem a type = some ptr) : s.host.touch ptr = s.host := by
  obtain ⟨e, hpt, rfl⟩ := nofault_eq_some hptr
  exact Host.touch_of_live _ _ (H.live (by rw [World.entry_put_self]; exact hpt))

end Chunk

/-! ## A walk below the last page -/

section Walk

variable {ι : Type} [Fintype ι] [DecidableEq ι] {w : World ι} {i : ι} {type : Access}
variable {addr : Addr} {base count fuel p : Nat} {s : Copying}

end Walk

/-! ## Strings -/

section Strings

variable {ι : Type} [Fintype ι] [DecidableEq ι] {w : World ι} {i : ι}
variable {addr : Addr} {fuel k left : Nat} {s s' : Copying} {h : Host} {mem : Mem}

end Strings

/-! ## All of them -/

theorem letterPages_inBounds : 1 + 1 ≤ MEM_PAGES ∧ 0xfffff + 1 ≤ MEM_PAGES := by decide

/-- The second page and the last one are mapped, and there is one letter. -/
def letterWorld : World Bool :=
  (((World.init.step (.mapNothing false ⟨1, 1, letterPages_inBounds.1⟩ P_WRITE)).1.step
    (.mapNothing false ⟨0xfffff, 1, letterPages_inBounds.2⟩ P_WRITE)).1.step
    (.write false 0x1000#32 97)).1

def letters : Copying where
  host := letterWorld.host
  mem := letterWorld.spaces false
  buf := fun _ => 0
  moved := []

end Ish.Memory
