import Mathlib.Data.List.Basic

namespace Leancrypto.Memory

/-!
# Memory support on Linux — secure allocations and their release

`memory_support_linux.c` hands out blocks from two sources: `posix_memalign` (optionally
`mlock`ed) and, for secure allocations while `lc_alloc_have_memfd_secret` is set, memory
mapped from a `memfd_secret` descriptor.  Each block starts with a `struct lc_mem_def`
header `{ fd, size }`; `lc_free` reads it back and releases the block with `munmap` and
`close` when the global flag is set and `fd >= 0`, with `free` otherwise.

We model the allocator as a state machine over the global flag and the live blocks, each
tagged with its origin; the results of the system calls an allocation makes are inputs.

* `lcAllocAlignedSecure`, `allocAlignedSecureInternal`, `lcFree`, … — the functions;
* `memRun_wellFormed` — along every run, every live block's header matches its origin;
* `lcFree_release` — freeing a live block releases it as its origin demands exactly when
  it came from `posix_memalign` or the flag is still set;
* `lcFree_after_memfd_fallback` — a later failed `memfd_secret` allocation clears the flag
  while a mapped block is live, and that block is then passed to `free`.
-/

/-- `LC_MEM_DEF_ALIGNED_OFFSET`: the room reserved for the header. -/
def lcMemDefAlignedOffset : Nat := 32

/-- `EPERM`, as Linux numbers it. -/
def ePerm : Int := 1

/-- `EAGAIN`, as Linux numbers it. -/
def eAgain : Int := 11

/-- `struct lc_mem_def`, the header at the start of every block. -/
structure LcMemDef where
  fd : Int
  size : Nat
  deriving DecidableEq, Repr

/-- Where a block's memory came from. -/
inductive Origin
  | posixMemalign
  | memfdSecret (fd : Int)
  deriving DecidableEq, Repr

/-- A live block: where it came from and the header written into it. -/
structure Block where
  origin : Origin
  header : LcMemDef
  deriving DecidableEq, Repr

/-- The results of the system calls of one allocation, in the order it makes them:
    `memfd_secret` (a descriptor, or `-1`), `ftruncate` (`0` or `-1`), whether `mmap`
    succeeded, `posix_memalign` (`0` or an error number), `mlock` (`0` or `-1`) and the
    `errno` a failed `mlock` leaves. -/
structure SysResults where
  memfdSecret : Int
  memfdSecret_ge : -1 ≤ memfdSecret
  ftruncate : Int
  mmap : Bool
  posixMemalign : Int
  mlock : Int
  errno : Int

/-- The allocator: the global `lc_alloc_have_memfd_secret`, the live blocks by the address
    of their header, and the next address the system hands out. -/
structure MemState where
  haveMemfdSecret : Bool
  blocks : List (Nat × Block)
  nextAddr : Nat

/-- The state at load time on a kernel with `SYS_memfd_secret`. -/
def memInit : MemState := ⟨true, [], 4096⟩

/-- A system call that releases a resource.  `undefinedFree` is `lc_free` on memory
    without a header in front of it. -/
inductive Effect
  | close (fd : Int)
  | munmap (addr size : Nat)
  | free (addr : Nat)
  | undefinedFree (addr : Nat)
  deriving DecidableEq, Repr

/-- What an allocation returns: its return code, the pointer stored in `*memptr`, and the
    releasing system calls it made. -/
structure MemResult where
  ret : Int
  ptr : Option Nat
  effects : List Effect
  deriving DecidableEq, Repr

/-! ### The functions -/

/-- `lc_free` (`lc_free_internal(ptr, 0)`): read the header in front of `ptr`, then
    `munmap` and `close` if the flag is set and `fd >= 0`, `free` otherwise. -/
def lcFree (st : MemState) (ptr : Nat) : MemState × List Effect :=
  if ptr = 0 then (st, []) else
  let mem := ptr - lcMemDefAlignedOffset
  match st.blocks.lookup mem with
  | none => (st, [.undefinedFree mem])
  | some b =>
    let st := { st with blocks := st.blocks.filter (·.1 != mem) }
    if st.haveMemfdSecret ∧ 0 ≤ b.header.fd then
      (st, .munmap mem b.header.size :: if b.header.fd ≠ -1 then [.close b.header.fd] else [])
    else (st, [.free mem])

/-- `alloc_aligned_secure_internal`: `posix_memalign`, `mlock` if `secure` (tolerating
    `EPERM` and `EAGAIN`), then the header with `fd = -1`.  A failing `mlock` hands the
    block's own address to `lc_free`, which looks for a header in front of it. -/
def allocAlignedSecureInternal (st : MemState) (size : Nat) (secure : Bool)
    (sys : SysResults) : MemState × MemResult :=
  let fullSize := lcMemDefAlignedOffset + size
  if sys.posixMemalign ≠ 0 then (st, ⟨sys.posixMemalign, none, []⟩) else
  let mem := st.nextAddr
  let st := { st with nextAddr := mem + fullSize }
  if secure ∧ sys.mlock ≠ 0 ∧ sys.errno ≠ ePerm ∧ sys.errno ≠ eAgain then
    (st, ⟨-sys.errno, none, [.undefinedFree (mem - lcMemDefAlignedOffset)]⟩)
  else
    ({ st with blocks := (mem, ⟨.posixMemalign, ⟨-1, fullSize⟩⟩) :: st.blocks },
      ⟨0, some (mem + lcMemDefAlignedOffset), []⟩)

/-- `lc_alloc_aligned`. -/
def lcAllocAligned (st : MemState) (size : Nat) (sys : SysResults) : MemState × MemResult :=
  allocAlignedSecureInternal st size false sys

/-- `lc_alloc_high_aligned`: `lc_alloc_aligned`. -/
def lcAllocHighAligned (st : MemState) (size : Nat) (sys : SysResults) :
    MemState × MemResult :=
  lcAllocAligned st size sys

/-- `lc_alloc_aligned_secure` with `LC_USE_MEMFD_SECURE`: map a `memfd_secret` descriptor
    while the flag is set; on any failure close the descriptor, clear the flag for good and
    fall back to `mlock`ed `posix_memalign` memory. -/
def lcAllocAlignedSecure (st : MemState) (size : Nat) (sys : SysResults) :
    MemState × MemResult :=
  let fullSize := lcMemDefAlignedOffset + size
  if !st.haveMemfdSecret then allocAlignedSecureInternal st size true sys else
  let fd := sys.memfdSecret
  let err :=
    let r := allocAlignedSecureInternal { st with haveMemfdSecret := false } size true sys
    (r.1, { r.2 with effects := (if fd ≠ -1 then [Effect.close fd] else []) ++ r.2.effects })
  if fd = -1 then err
  else if sys.ftruncate = -1 then err
  else if !sys.mmap then err
  else
    let mem := st.nextAddr
    ({ st with blocks := (mem, ⟨.memfdSecret fd, ⟨fd, fullSize⟩⟩) :: st.blocks,
               nextAddr := mem + fullSize },
      ⟨0, some (mem + lcMemDefAlignedOffset), []⟩)

/-- A call of the allocation interface. -/
inductive MemCall
  | allocAligned (size : Nat) (sys : SysResults)
  | allocHighAligned (size : Nat) (sys : SysResults)
  | allocAlignedSecure (size : Nat) (sys : SysResults)
  | free (ptr : Nat)

/-- One call. -/
def memStep (st : MemState) : MemCall → MemState × MemResult
  | .allocAligned size sys => lcAllocAligned st size sys
  | .allocHighAligned size sys => lcAllocHighAligned st size sys
  | .allocAlignedSecure size sys => lcAllocAlignedSecure st size sys
  | .free ptr => let r := lcFree st ptr; (r.1, ⟨0, none, r.2⟩)

/-- A run of calls: the state after them and each call's result. -/
def memRun (st : MemState) : List MemCall → MemState × List MemResult
  | [] => (st, [])
  | c :: cs => ((memRun (memStep st c).1 cs).1, (memStep st c).2 :: (memRun (memStep st c).1 cs).2)

/-! ### Headers match origins -/

/-- A block's header as its allocation writes it: a `memfd_secret` block records its
    (non-negative) descriptor, a `posix_memalign` block `-1`. -/
def Block.WellFormed (b : Block) : Prop :=
  match b.origin with
  | .memfdSecret fd => b.header.fd = fd ∧ 0 ≤ fd
  | .posixMemalign => b.header.fd = -1

/-- Every live block is well formed. -/
def MemState.WellFormed (st : MemState) : Prop := ∀ p ∈ st.blocks, p.2.WellFormed

theorem memInit_wellFormed : memInit.WellFormed := by
  simp [MemState.WellFormed, memInit]

theorem lcFree_wellFormed {st : MemState} (h : st.WellFormed) (ptr : Nat) :
    (lcFree st ptr).1.WellFormed := by
  unfold lcFree
  split_ifs
  · exact h
  · dsimp only
    split
    · exact h
    · split_ifs <;> exact fun p hp => h p (List.mem_of_mem_filter hp)

theorem allocAlignedSecureInternal_wellFormed {st : MemState} (h : st.WellFormed)
    (size : Nat) (secure : Bool) (sys : SysResults) :
    (allocAlignedSecureInternal st size secure sys).1.WellFormed := by
  unfold allocAlignedSecureInternal
  dsimp only
  split_ifs
  · exact h
  · exact h
  · intro p hp
    rcases List.mem_cons.mp hp with rfl | hp
    · rfl
    · exact h p hp

theorem lcAllocAlignedSecure_wellFormed {st : MemState} (h : st.WellFormed) (size : Nat)
    (sys : SysResults) : (lcAllocAlignedSecure st size sys).1.WellFormed := by
  have hfall := allocAlignedSecureInternal_wellFormed
    (show ({ st with haveMemfdSecret := false } : MemState).WellFormed from h) size true sys
  have hge := sys.memfdSecret_ge
  unfold lcAllocAlignedSecure
  dsimp only
  split_ifs with h₁ h₂ h₃ h₄
  · exact allocAlignedSecureInternal_wellFormed h size true sys
  all_goals first
    | exact hfall
    | intro p hp
      rcases List.mem_cons.mp hp with rfl | hp
      · exact ⟨rfl, by omega⟩
      · exact h p hp

/-- **Step**: every call keeps every live header matching its origin. -/
theorem memStep_wellFormed {st : MemState} (h : st.WellFormed) (c : MemCall) :
    (memStep st c).1.WellFormed := by
  cases c with
  | allocAligned size sys | allocHighAligned size sys =>
    exact allocAlignedSecureInternal_wellFormed h size false sys
  | allocAlignedSecure size sys => exact lcAllocAlignedSecure_wellFormed h size sys
  | free ptr => exact lcFree_wellFormed h ptr

/-- **Run**: from load time, every live header matches its block's origin. -/
theorem memRun_wellFormed (cs : List MemCall) : (memRun memInit cs).1.WellFormed := by
  suffices ∀ st, st.WellFormed → (memRun st cs).1.WellFormed from this _ memInit_wellFormed
  induction cs with
  | nil => exact fun _ h => h
  | cons c cs ih => exact fun st h => ih _ (memStep_wellFormed h c)

/-! ### Which primitive releases a block -/

/-- The release a block's origin calls for: `munmap` and `close` for memory mapped from a
    `memfd_secret` descriptor, `free` for `posix_memalign` memory. -/
def properRelease (mem : Nat) (b : Block) : List Effect :=
  match b.origin with
  | .memfdSecret fd => [.munmap mem b.header.size, .close fd]
  | .posixMemalign => [.free mem]

theorem mem_of_lookup {l : List (Nat × Block)} {a : Nat} {b : Block}
    (h : l.lookup a = some b) : (a, b) ∈ l := by
  obtain ⟨l₁, l₂, rfl, -⟩ := List.lookup_eq_some_iff.mp h
  simp

/-- Freeing a live well-formed block releases it as its origin demands exactly when it came
    from `posix_memalign` or the flag is still set. -/
theorem lcFree_release (st : MemState) {ptr : Nat} {b : Block} (hptr : ptr ≠ 0)
    (hb : st.blocks.lookup (ptr - lcMemDefAlignedOffset) = some b) (hwf : st.WellFormed) :
    (lcFree st ptr).2 = properRelease (ptr - lcMemDefAlignedOffset) b ↔
      (b.origin = .posixMemalign ∨ st.haveMemfdSecret = true) := by
  have hb' : b.WellFormed := hwf _ (mem_of_lookup hb)
  simp only [lcFree, hptr, if_false, hb]
  unfold Block.WellFormed at hb'
  unfold properRelease
  cases ho : b.origin with
  | memfdSecret fd =>
    obtain ⟨hfd, hpos⟩ : b.header.fd = fd ∧ 0 ≤ fd := by rwa [ho] at hb'
    cases st.haveMemfdSecret <;> simp [hfd, hpos, show fd ≠ -1 by omega]
  | posixMemalign =>
    have hfd : b.header.fd = -1 := by rwa [ho] at hb'
    simp [hfd]

/-- **Release discipline over every run**: from load time, after any calls, freeing a live
    block releases it as its origin demands exactly when it came from `posix_memalign` or
    the flag is still set. -/
theorem memRun_lcFree_release (cs : List MemCall) {ptr : Nat} {b : Block} (hptr : ptr ≠ 0)
    (hb : (memRun memInit cs).1.blocks.lookup (ptr - lcMemDefAlignedOffset) = some b) :
    (lcFree (memRun memInit cs).1 ptr).2 = properRelease (ptr - lcMemDefAlignedOffset) b ↔
      (b.origin = .posixMemalign ∨ (memRun memInit cs).1.haveMemfdSecret = true) :=
  lcFree_release _ hptr hb (memRun_wellFormed cs)

/-- A `memfd_secret` block freed while the flag is still set. -/
theorem memRun_lcFree_release_memfd :
    (lcFree (memRun memInit [.allocAlignedSecure 16 ⟨3, by decide, 0, true, 0, 0, 0⟩]).1
        4128).2 = properRelease (4128 - lcMemDefAlignedOffset) ⟨.memfdSecret 3, ⟨3, 48⟩⟩ ↔
      ((⟨.memfdSecret 3, ⟨3, 48⟩⟩ : Block).origin = .posixMemalign ∨
        (memRun memInit [.allocAlignedSecure 16 ⟨3, by decide, 0, true, 0, 0, 0⟩]).1.haveMemfdSecret
          = true) :=
  memRun_lcFree_release _ (by decide) (by decide)

/-! ### The flag outlives the blocks it describes -/

@[simp] theorem allocAlignedSecureInternal_haveMemfdSecret (st : MemState) (size : Nat)
    (secure : Bool) (sys : SysResults) :
    (allocAlignedSecureInternal st size secure sys).1.haveMemfdSecret = st.haveMemfdSecret := by
  unfold allocAlignedSecureInternal
  split_ifs <;> rfl

/-- The fallback allocation leaves every block below the next address where it was. -/
theorem lookup_allocAlignedSecureInternal (st : MemState) (size : Nat) (secure : Bool)
    (sys : SysResults) {a : Nat} (ha : a < st.nextAddr) :
    (allocAlignedSecureInternal st size secure sys).1.blocks.lookup a = st.blocks.lookup a := by
  unfold allocAlignedSecureInternal
  split_ifs
  · rfl
  · rfl
  · rw [List.lookup_cons, beq_false_of_ne (Nat.ne_of_lt ha)]

/-- A secure allocation whose `memfd_secret`, `ftruncate` or `mmap` fails clears the flag
    and falls back to `posix_memalign`. -/
theorem lcAllocAlignedSecure_of_fail {st : MemState} (size : Nat) {sys : SysResults}
    (hflag : st.haveMemfdSecret = true)
    (hfail : sys.memfdSecret = -1 ∨ sys.ftruncate = -1 ∨ sys.mmap = false) :
    (lcAllocAlignedSecure st size sys).1 =
      (allocAlignedSecureInternal { st with haveMemfdSecret := false } size true sys).1 := by
  unfold lcAllocAlignedSecure
  rcases hfail with h | h | h <;> simp [hflag, h]

/-- A secure allocation served by `memfd_secret`: a new block at the next address,
    recording its descriptor. -/
theorem lcAllocAlignedSecure_of_ok {st : MemState} (size : Nat) {sys : SysResults}
    (hflag : st.haveMemfdSecret = true) (hfd : sys.memfdSecret ≠ -1)
    (htr : sys.ftruncate ≠ -1) (hmap : sys.mmap = true) :
    let a := lcAllocAlignedSecure st size sys
    a.2.ptr = some (st.nextAddr + lcMemDefAlignedOffset) ∧
      a.1.blocks = (st.nextAddr, ⟨.memfdSecret sys.memfdSecret,
        ⟨sys.memfdSecret, lcMemDefAlignedOffset + size⟩⟩) :: st.blocks ∧
      a.1.nextAddr = st.nextAddr + (lcMemDefAlignedOffset + size) ∧
      a.1.haveMemfdSecret = true := by
  simp [lcAllocAlignedSecure, hflag, hfd, htr, hmap]

/-- **A mapped block freed with `free`.**  A secure allocation served by `memfd_secret`,
    then one whose `memfd_secret`, `ftruncate` or `mmap` fails: the second clears the global
    flag while the first block is live, and `lc_free` of the first block's pointer then
    calls `free` on the mapped memory instead of `munmap` and `close`. -/
theorem lcFree_after_memfd_fallback (st : MemState) (n m : Nat) (s₁ s₂ : SysResults)
    (hflag : st.haveMemfdSecret = true) (hfd : s₁.memfdSecret ≠ -1)
    (htr : s₁.ftruncate ≠ -1) (hmap : s₁.mmap = true)
    (hfail : s₂.memfdSecret = -1 ∨ s₂.ftruncate = -1 ∨ s₂.mmap = false) :
    let a := lcAllocAlignedSecure st n s₁
    let b := lcAllocAlignedSecure a.1 m s₂
    a.2.ptr = some (st.nextAddr + lcMemDefAlignedOffset) ∧
      b.1.blocks.lookup st.nextAddr =
        some ⟨.memfdSecret s₁.memfdSecret, ⟨s₁.memfdSecret, lcMemDefAlignedOffset + n⟩⟩ ∧
      (lcFree b.1 (st.nextAddr + lcMemDefAlignedOffset)).2 = [.free st.nextAddr] := by
  intro a b
  obtain ⟨hptr, hblocks, hnext, hflag'⟩ := lcAllocAlignedSecure_of_ok n hflag hfd htr hmap
  have hb : b.1 = (allocAlignedSecureInternal { a.1 with haveMemfdSecret := false } m true s₂).1 :=
    lcAllocAlignedSecure_of_fail m hflag' hfail
  have hlookup : b.1.blocks.lookup st.nextAddr =
      some ⟨.memfdSecret s₁.memfdSecret, ⟨s₁.memfdSecret, lcMemDefAlignedOffset + n⟩⟩ := by
    rw [hb, lookup_allocAlignedSecureInternal _ _ _ _ (by simp only [a, hnext, lcMemDefAlignedOffset]; omega)]
    simp [a, hblocks]
  have hoff : ¬b.1.haveMemfdSecret = true := by simp [hb]
  refine ⟨hptr, hlookup, ?_⟩
  simp [lcFree, lcMemDefAlignedOffset, hlookup, hoff]

/-- Descriptor 3 mapped for a 16-byte block, then a second 16-byte request whose
    `ftruncate` fails on descriptor 4. -/
theorem lcFree_after_memfd_fallback_ftruncate :
    let a := lcAllocAlignedSecure memInit 16 ⟨3, by decide, 0, true, 0, 0, 0⟩
    let b := lcAllocAlignedSecure a.1 16 ⟨4, by decide, -1, true, 0, 0, 0⟩
    a.2.ptr = some (memInit.nextAddr + lcMemDefAlignedOffset) ∧
      b.1.blocks.lookup memInit.nextAddr = some ⟨.memfdSecret 3, ⟨3, lcMemDefAlignedOffset + 16⟩⟩ ∧
      (lcFree b.1 (memInit.nextAddr + lcMemDefAlignedOffset)).2 = [.free memInit.nextAddr] :=
  lcFree_after_memfd_fallback memInit 16 16 _ _ rfl (by decide) (by decide) rfl
    (.inr (.inl rfl))

end Leancrypto.Memory
