import Mathlib
import Leancrypto.Memory.SupportLinux

namespace Leancrypto.Memory

/-!
# Memory support on Linux — addresses, sizes and zeroing of one allocation

`SupportLinux` follows the allocator over whole runs and abstracts the addresses: a block
starts at the state's next address.  This file follows one allocation at the level of
addresses: the pointer `posix_memalign` or `mmap` hands back, the `size_t` sum
`LC_MEM_DEF_ALIGNED_OFFSET + size` as the code computes it, and the bytes the final
`memset` clears.

* `allocAlignedSecureInternalAt`, `lcAllocAlignedAt`, `lcAllocHighAlignedAt`,
  `lcAllocAlignedSecureAt` — the functions, over outcomes of the system calls that keep
  their contracts (an aligned `posix_memalign` pointer, a page-aligned mapping);
* `allocAlignedSecureInternalAt_refines` — with the coarse model's next address set to the
  pointer `posix_memalign` returns, both models return the same code and pointer;
* `lcAlloc_postcondition` — when the alignment divides `LC_MEM_DEF_ALIGNED_OFFSET` and the
  sum does not wrap, a successful allocation returns an aligned pointer to `size` zero
  bytes inside the block, whose header records the block's size;
* `lcAllocAligned_misaligned_or_wrapped` — an alignment of 64, or a size whose sum wraps,
  breaks that postcondition on successful calls.
-/

/-- `SIZE_MAX + 1` on the 64-bit hosts modelled here: `size_t` arithmetic is modulo it. -/
def sizeMod : Nat := 2 ^ 64

/-- The page size `mmap` aligns a mapping to. -/
def pageSize : Nat := 4096

/-- The outcomes of the system calls of one allocation with the addresses they return:
    the results the coarse model reads, `posix_memalign`'s pointer, a multiple of the
    alignment it is asked for whenever it returns 0, and the mapping's address, a multiple
    of the page size; a failing `mlock` leaves a positive `errno`. -/
structure SysOutcome (alignment : Nat) extends SysResults where
  mlock_errno : mlock ≠ 0 → 0 < errno
  posixMemalignPtr : Nat
  posixMemalign_aligned : posixMemalign = 0 → posixMemalignPtr % alignment = 0
  mmapAddr : Nat
  mmap_aligned : mmapAddr % pageSize = 0

/-- A successful allocation: the block the system handed out (its address and the size
    asked for), the header written at its start, and the pointer stored in `*memptr`. -/
structure Allocation where
  base : Nat
  blockSize : Nat
  header : LcMemDef
  memptr : Nat
  deriving DecidableEq, Repr

/-- What one allocation returns: its code, the allocation when it succeeds, the memory
    after it, and the global `lc_alloc_have_memfd_secret` after it. -/
structure AllocResult where
  ret : Int
  alloc : Option Allocation
  mem : Nat → UInt8
  haveMemfdSecret : Bool

/-- `memset(p, 0, n)`. -/
def memsetZero (mem : Nat → UInt8) (p n : Nat) : Nat → UInt8 :=
  fun i => if p ≤ i ∧ i < p + n then 0 else mem i

variable {alignment : Nat}

/-! ### The functions -/

/-- `alloc_aligned_secure_internal`: `posix_memalign` of the `size_t` sum
    `LC_MEM_DEF_ALIGNED_OFFSET + size`, `mlock` if `secure` (tolerating `EPERM` and
    `EAGAIN`), the header with `fd = -1`, and `size` zero bytes past the header. -/
def allocAlignedSecureInternalAt (flag : Bool) (mem : Nat → UInt8) (size : Nat)
    (secure : Bool) (sys : SysOutcome alignment) : AllocResult :=
  let fullSize := (lcMemDefAlignedOffset + size) % sizeMod
  if sys.posixMemalign ≠ 0 then ⟨sys.posixMemalign, none, mem, flag⟩ else
  if secure ∧ sys.mlock ≠ 0 ∧ sys.errno ≠ ePerm ∧ sys.errno ≠ eAgain then
    ⟨-sys.errno, none, mem, flag⟩
  else
    let memptr := sys.posixMemalignPtr + lcMemDefAlignedOffset
    ⟨0, some ⟨sys.posixMemalignPtr, fullSize, ⟨-1, fullSize⟩, memptr⟩,
      memsetZero mem memptr size, flag⟩

/-- `lc_alloc_aligned`. -/
def lcAllocAlignedAt (flag : Bool) (mem : Nat → UInt8) (size : Nat)
    (sys : SysOutcome alignment) : AllocResult :=
  allocAlignedSecureInternalAt flag mem size false sys

/-- `lc_alloc_high_aligned`: `lc_alloc_aligned`. -/
def lcAllocHighAlignedAt (flag : Bool) (mem : Nat → UInt8) (size : Nat)
    (sys : SysOutcome alignment) : AllocResult :=
  lcAllocAlignedAt flag mem size sys

/-- `lc_alloc_aligned_secure` with `LC_USE_MEMFD_SECURE`: a `memfd_secret` mapping of the
    `size_t` sum while the flag is set, the header with the descriptor, and `size` zero
    bytes past it; on any failure the flag is cleared and `mlock`ed `posix_memalign` memory
    is used. -/
def lcAllocAlignedSecureAt (flag : Bool) (mem : Nat → UInt8) (size : Nat)
    (sys : SysOutcome alignment) : AllocResult :=
  let fullSize := (lcMemDefAlignedOffset + size) % sizeMod
  if !flag then allocAlignedSecureInternalAt flag mem size true sys else
  let err := allocAlignedSecureInternalAt false mem size true sys
  if sys.memfdSecret = -1 then err
  else if sys.ftruncate = -1 then err
  else if !sys.mmap then err
  else
    let memptr := sys.mmapAddr + lcMemDefAlignedOffset
    ⟨0, some ⟨sys.mmapAddr, fullSize, ⟨sys.memfdSecret, fullSize⟩, memptr⟩,
      memsetZero mem memptr size, flag⟩

/-! ### The two models agree -/

/-- With the coarse model's next address at the pointer `posix_memalign` returns,
    `alloc_aligned_secure_internal` returns the same code and the same pointer in both
    models. -/
theorem allocAlignedSecureInternalAt_refines (st : MemState) (mem : Nat → UInt8)
    (size : Nat) (secure : Bool) (sys : SysOutcome alignment)
    (hnext : st.nextAddr = sys.posixMemalignPtr) :
    (allocAlignedSecureInternal st size secure sys.toSysResults).2.ret =
      (allocAlignedSecureInternalAt st.haveMemfdSecret mem size secure sys).ret ∧
    (allocAlignedSecureInternal st size secure sys.toSysResults).2.ptr =
      (allocAlignedSecureInternalAt st.haveMemfdSecret mem size secure sys).alloc.map
        (·.memptr) := by
  unfold allocAlignedSecureInternal allocAlignedSecureInternalAt
  split_ifs <;> simp [hnext]

/-! ### The postcondition -/

/-- What the interface promises a successful call: `*memptr` is a multiple of the
    alignment and sits past the header, the `size` bytes from it lie inside the block and
    are zero, and the header records the block's size. -/
def AllocPost (alignment size : Nat) (r : AllocResult) : Prop :=
  ∃ a, r.alloc = some a ∧ a.memptr % alignment = 0 ∧
    a.base + lcMemDefAlignedOffset = a.memptr ∧ a.memptr + size ≤ a.base + a.blockSize ∧
    (∀ i, a.memptr ≤ i → i < a.memptr + size → r.mem i = 0) ∧ a.header.size = a.blockSize

/-- A success as both allocation paths write it meets the postcondition when the block's
    address is aligned, the alignment divides the header room and the sum does not wrap. -/
theorem allocPost_of_success {mem : Nat → UInt8} {p size : Nat} {fd : Int} (flag : Bool)
    (hp : p % alignment = 0) (ha : alignment ∣ lcMemDefAlignedOffset)
    (hs : lcMemDefAlignedOffset + size < sizeMod) :
    AllocPost alignment size ⟨0, some ⟨p, (lcMemDefAlignedOffset + size) % sizeMod,
      ⟨fd, (lcMemDefAlignedOffset + size) % sizeMod⟩, p + lcMemDefAlignedOffset⟩,
      memsetZero mem (p + lcMemDefAlignedOffset) size, flag⟩ := by
  refine ⟨_, rfl, ?_, rfl, ?_, fun i h₁ h₂ => if_pos ⟨h₁, h₂⟩, rfl⟩
  · exact Nat.mod_eq_zero_of_dvd (Nat.dvd_add (Nat.dvd_of_mod_eq_zero hp) ha)
  · dsimp only; rw [Nat.mod_eq_of_lt hs]; omega

section Post

variable (flag : Bool) (mem : Nat → UInt8) {size : Nat} (sys : SysOutcome alignment)
  (ha : alignment ∣ lcMemDefAlignedOffset) (hs : lcMemDefAlignedOffset + size < sizeMod)
include ha hs

theorem allocAlignedSecureInternalAt_post (secure : Bool)
    (h : (allocAlignedSecureInternalAt flag mem size secure sys).ret = 0) :
    AllocPost alignment size (allocAlignedSecureInternalAt flag mem size secure sys) := by
  unfold allocAlignedSecureInternalAt at h ⊢
  split_ifs at h ⊢ with h₁ h₂
  · exact absurd h h₁
  · have := sys.mlock_errno h₂.2.1
    simp only [neg_eq_zero] at h
    omega
  · exact allocPost_of_success flag (sys.posixMemalign_aligned (not_not.1 h₁)) ha hs

theorem lcAllocAlignedSecureAt_post
    (h : (lcAllocAlignedSecureAt flag mem size sys).ret = 0) :
    AllocPost alignment size (lcAllocAlignedSecureAt flag mem size sys) := by
  have hmmap : sys.mmapAddr % alignment = 0 :=
    Nat.mod_eq_zero_of_dvd ((Nat.dvd_trans ha (by decide : lcMemDefAlignedOffset ∣ pageSize)).trans
      (Nat.dvd_of_mod_eq_zero sys.mmap_aligned))
  unfold lcAllocAlignedSecureAt at h ⊢
  split_ifs at h ⊢ <;>
    first
    | exact allocAlignedSecureInternalAt_post _ _ _ ha hs _ h
    | exact allocPost_of_success flag hmmap ha hs

end Post

/-- **The postcondition, for alignments up to the header room.**  When the alignment
    divides `LC_MEM_DEF_ALIGNED_OFFSET` and `LC_MEM_DEF_ALIGNED_OFFSET + size` does not
    wrap, every successful `lc_alloc_aligned`, `lc_alloc_high_aligned` and
    `lc_alloc_aligned_secure` returns an aligned pointer past the header to `size` zero
    bytes inside the block, whose header records the block's size, whatever the system
    calls return. -/
theorem lcAlloc_postcondition (flag : Bool) (mem : Nat → UInt8) (size : Nat)
    (sys : SysOutcome alignment) (ha : alignment ∣ lcMemDefAlignedOffset)
    (hs : lcMemDefAlignedOffset + size < sizeMod) :
    ((lcAllocAlignedAt flag mem size sys).ret = 0 →
      AllocPost alignment size (lcAllocAlignedAt flag mem size sys)) ∧
    ((lcAllocHighAlignedAt flag mem size sys).ret = 0 →
      AllocPost alignment size (lcAllocHighAlignedAt flag mem size sys)) ∧
    ((lcAllocAlignedSecureAt flag mem size sys).ret = 0 →
      AllocPost alignment size (lcAllocAlignedSecureAt flag mem size sys)) :=
  ⟨allocAlignedSecureInternalAt_post flag mem sys ha hs false,
    allocAlignedSecureInternalAt_post flag mem sys ha hs false,
    lcAllocAlignedSecureAt_post flag mem sys ha hs⟩

/-- System calls that all succeed, `posix_memalign` and `mmap` both handing out address
    4096 and `memfd_secret` descriptor 3. -/
def sysAt4096 (alignment : Nat) (h : 4096 % alignment = 0) : SysOutcome alignment :=
  { memfdSecret := 3, memfdSecret_ge := by decide, ftruncate := 0, mmap := true,
    posixMemalign := 0, mlock := 0, errno := 0, mlock_errno := fun h => absurd rfl h,
    posixMemalignPtr := 4096, posixMemalign_aligned := fun _ => h, mmapAddr := 4096,
    mmap_aligned := rfl }

theorem lcAlloc_postcondition_at4096 :
    32 ∣ lcMemDefAlignedOffset ∧ lcMemDefAlignedOffset + 16 < sizeMod ∧
    ((lcAllocAlignedSecureAt true (fun _ => 0xff) 16 (sysAt4096 32 rfl)).ret = 0 →
      AllocPost 32 16 (lcAllocAlignedSecureAt true (fun _ => 0xff) 16 (sysAt4096 32 rfl))) :=
  ⟨by decide, by decide,
    (lcAlloc_postcondition true (fun _ => 0xff) 16 (sysAt4096 32 rfl) (by decide) (by decide)).2.2⟩

theorem not_allocPost {alignment size : Nat} {r : AllocResult} {a : Allocation}
    (h : r.alloc = some a)
    (hbad : a.memptr % alignment ≠ 0 ∨ a.base + a.blockSize < a.memptr + size) :
    ¬AllocPost alignment size r := by
  rintro ⟨a', ha', hal, -, hin, -⟩
  rw [h, Option.some.injEq] at ha'
  subst ha'
  omega

/-- **Alignments past the header room, and wrapping sizes.**  With every system call
    succeeding: `lc_alloc_high_aligned` and `lc_alloc_aligned_secure` asked for an
    alignment of 64 return 0 with `*memptr` 32 bytes past a 64-byte boundary, and
    `lc_alloc_aligned` asked for `SIZE_MAX` bytes returns 0 with a 31-byte block. -/
theorem lcAllocAligned_misaligned_or_wrapped :
    (lcAllocHighAlignedAt true (fun _ => 0xff) 0 (sysAt4096 64 rfl)).ret = 0 ∧
      ¬AllocPost 64 0 (lcAllocHighAlignedAt true (fun _ => 0xff) 0 (sysAt4096 64 rfl)) ∧
    (lcAllocAlignedSecureAt true (fun _ => 0xff) 0 (sysAt4096 64 rfl)).ret = 0 ∧
      ¬AllocPost 64 0 (lcAllocAlignedSecureAt true (fun _ => 0xff) 0 (sysAt4096 64 rfl)) ∧
    (lcAllocAlignedAt true (fun _ => 0xff) (2 ^ 64 - 1) (sysAt4096 8 rfl)).ret = 0 ∧
      ¬AllocPost 8 (2 ^ 64 - 1)
        (lcAllocAlignedAt true (fun _ => 0xff) (2 ^ 64 - 1) (sysAt4096 8 rfl)) :=
  ⟨rfl, not_allocPost rfl (.inl (by decide)), rfl, not_allocPost rfl (.inl (by decide)), rfl,
    not_allocPost rfl (.inr (by decide))⟩

end Leancrypto.Memory
