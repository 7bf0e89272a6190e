import Mathlib

namespace Leancrypto.Init

/-!
# ARMv8 CPU features — decoding `ID_AA64ISAR0_EL1` and latching the result

`lc_cpu_feature_available` reads `ID_AA64ISAR0_EL1` while the global `features` is
`LC_CPU_FEATURE_UNSET`, turns the register into a feature set with one mask test per
feature, stores that set and returns it; later calls return the stored set.
`lc_cpu_feature_disable`, `_enable` and `_set` overwrite the global.

* `lcCpuFeatureDecode` — the mask tests, as the code makes them;
* `lcCpuFeatureDecode_bits` — for every register value, the bits each reported feature
  depends on: `ARM_AES` on bits 4 and 8 (the low bits of the AES and the SHA1 field),
  `ARM_PMULL` on bit 5, `ARM_SHA2` on bit 12, `ARM_SHA2_512` on bit 13, `ARM_SHA3` on any
  of bits 32–35;
* `lcCpuFeatureAvailable_field_two` — so an AES field of 2 reports no `ARM_AES`, a SHA1
  field of 1 reports `ARM_AES`, and a SHA2 field of 2 reports no `ARM_SHA2`;
* `cpuRun_refines` — over every run of calls, reading the register lazily behaves as a
  cell holding the set callers see, which only `disable`, `enable` and `set` change.
-/

/-- The constants of `enum lc_cpu_features` this file uses, one flag each.  Their numeric
    values are not in the sources; the enum is a bit mask, so a value is a set of flags,
    `|` is union and `==` is equality of sets. -/
inductive CpuFeature
  | unset
  | arm
  | armNeon
  | armAes
  | armSha2
  | armSha2_512
  | armSha3
  | armPmull
  deriving DecidableEq, Repr

/-- `LC_CPU_FEATURE_UNSET`. -/
def lcCpuFeatureUnset : Finset CpuFeature := {.unset}

/-! ### The masks and the decoding -/

/-- `ARM8_SHA3_FEATURE`. -/
def arm8Sha3Feature : UInt64 := (0xf : UInt64) <<< 32

/-- `ARM8_SHA256_FEATURE`. -/
def arm8Sha256Feature : UInt64 := (0x1 : UInt64) <<< 12

/-- `ARM8_SHA256512_FEATURE`. -/
def arm8Sha256512Feature : UInt64 := (0x1 : UInt64) <<< 13

/-- `ARM8_PMULL_FEATURE`. -/
def arm8PmullFeature : UInt64 := (0x1 : UInt64) <<< 5

/-- `ARM8_AES_FEATURE`. -/
def arm8AesFeature : UInt64 := (0x11 : UInt64) <<< 4

/-- The body of `lc_cpu_feature_available` under `features == LC_CPU_FEATURE_UNSET`: the
    set it stores for the register value `v`. -/
def lcCpuFeatureDecode (v : UInt64) : Finset CpuFeature :=
  let f : Finset CpuFeature := {.arm, .armNeon}
  let f := if v &&& arm8AesFeature ≠ 0 then insert .armAes f else f
  let f := if v &&& arm8Sha256Feature ≠ 0 then insert .armSha2 f else f
  let f := if v &&& arm8Sha256512Feature ≠ 0 then insert .armSha2_512 f else f
  let f := if v &&& arm8Sha3Feature ≠ 0 then insert .armSha3 f else f
  if v &&& arm8PmullFeature ≠ 0 then insert .armPmull f else f

/-- `lc_cpu_feature_available`: the new global and the value returned; `reg` is what the
    register read gives. -/
def lcCpuFeatureAvailable (reg : UInt64) (features : Finset CpuFeature) :
    Finset CpuFeature × Finset CpuFeature :=
  let features := if features = lcCpuFeatureUnset then lcCpuFeatureDecode reg else features
  (features, features)

/-- A 4-bit field of `ID_AA64ISAR0_EL1` starting at bit `lo`, as the Arm architecture
    numbers them (AES at 4, SHA1 at 8, SHA2 at 12, SHA3 at 32). -/
def idAa64isar0Field (v : UInt64) (lo : Nat) : Nat := v.toNat / 2 ^ lo % 16

theorem mem_ite_insert {a b : CpuFeature} {c : Prop} [Decidable c] {f : Finset CpuFeature} :
    a ∈ (if c then insert b f else f) ↔ (c ∧ a = b) ∨ a ∈ f := by
  split_ifs with h <;> simp [h]

/-- What the decoded set holds, one mask test per feature (the last test first). -/
theorem mem_lcCpuFeatureDecode {v : UInt64} {x : CpuFeature} :
    x ∈ lcCpuFeatureDecode v ↔
      (v &&& arm8PmullFeature ≠ 0 ∧ x = .armPmull) ∨
      (v &&& arm8Sha3Feature ≠ 0 ∧ x = .armSha3) ∨
      (v &&& arm8Sha256512Feature ≠ 0 ∧ x = .armSha2_512) ∨
      (v &&& arm8Sha256Feature ≠ 0 ∧ x = .armSha2) ∨
      (v &&& arm8AesFeature ≠ 0 ∧ x = .armAes) ∨ x = .arm ∨ x = .armNeon := by
  simp only [lcCpuFeatureDecode, mem_ite_insert, Finset.mem_insert, Finset.mem_singleton]

theorem uint64_ne_zero_iff (v : UInt64) : v ≠ 0 ↔ v.toNat ≠ 0 :=
  not_congr ⟨fun h => h ▸ rfl, fun h => UInt64.eq_of_toBitVec_eq (BitVec.eq_of_toNat_eq h)⟩

theorem land_ne_zero_iff (n m : Nat) : n &&& m ≠ 0 ↔ ∃ i, n.testBit i ∧ m.testBit i := by
  constructor
  · intro h
    by_contra hc
    push_neg at hc
    exact h (Nat.zero_of_testBit_eq_false fun i => by
      rw [Nat.testBit_land]; cases hn : n.testBit i <;> simp_all)
  · rintro ⟨i, hn, hm⟩ h
    simpa [hn, hm] using congrArg (Nat.testBit · i) h

/-- A mask below `2 ^ B` has exactly the bits `S` if it has them among its first `B`. -/
theorem testBit_iff_mem {m B : Nat} {S : List Nat} (hm : m < 2 ^ B)
    (hS : ∀ i < B, (m.testBit i ↔ i ∈ S)) (hSB : ∀ i ∈ S, i < B) (i : Nat) :
    m.testBit i ↔ i ∈ S := by
  by_cases hi : i < B
  · exact hS i hi
  · have : m.testBit i = false :=
      Nat.testBit_eq_false_of_lt (lt_of_lt_of_le hm (Nat.pow_le_pow_right (by decide) (by omega)))
    simp only [this, Bool.false_eq_true, false_iff]
    exact fun h => hi (hSB i h)

/-- A mask test of the code, as the register bits it reads. -/
theorem land_mask_ne_zero {v m : UInt64} {B : Nat} {S : List Nat} (hm : m.toNat < 2 ^ B)
    (hS : ∀ i < B, (m.toNat.testBit i ↔ i ∈ S)) (hSB : ∀ i ∈ S, i < B) :
    v &&& m ≠ 0 ↔ ∃ i ∈ S, v.toNat.testBit i := by
  simp only [uint64_ne_zero_iff, UInt64.and_toNat, land_ne_zero_iff,
    testBit_iff_mem hm hS hSB]
  exact ⟨fun ⟨i, h, hi⟩ => ⟨i, hi, h⟩, fun ⟨i, hi, h⟩ => ⟨i, h, hi⟩⟩

/-- **What the decoding reads.**  For every register value, the feature set stored by
    `lc_cpu_feature_available` reports `ARM_AES` iff bit 4 or bit 8 is set (the low bit of
    the AES field or of the SHA1 field), `ARM_PMULL` iff bit 5, `ARM_SHA2` iff bit 12,
    `ARM_SHA2_512` iff bit 13, and `ARM_SHA3` iff one of bits 32–35 is set. -/
theorem lcCpuFeatureDecode_bits (v : UInt64) :
    (.armAes ∈ lcCpuFeatureDecode v ↔ v.toNat.testBit 4 ∨ v.toNat.testBit 8) ∧
    (.armPmull ∈ lcCpuFeatureDecode v ↔ v.toNat.testBit 5) ∧
    (.armSha2 ∈ lcCpuFeatureDecode v ↔ v.toNat.testBit 12) ∧
    (.armSha2_512 ∈ lcCpuFeatureDecode v ↔ v.toNat.testBit 13) ∧
    (.armSha3 ∈ lcCpuFeatureDecode v ↔
      v.toNat.testBit 32 ∨ v.toNat.testBit 33 ∨ v.toNat.testBit 34 ∨ v.toNat.testBit 35) := by
  have aes := land_mask_ne_zero (v := v) (m := arm8AesFeature) (B := 9) (S := [4, 8])
    (by decide) (by decide) (by decide)
  have pmull := land_mask_ne_zero (v := v) (m := arm8PmullFeature) (B := 6) (S := [5])
    (by decide) (by decide) (by decide)
  have sha2 := land_mask_ne_zero (v := v) (m := arm8Sha256Feature) (B := 13) (S := [12])
    (by decide) (by decide) (by decide)
  have sha512 := land_mask_ne_zero (v := v) (m := arm8Sha256512Feature) (B := 14) (S := [13])
    (by decide) (by decide) (by decide)
  have sha3 := land_mask_ne_zero (v := v) (m := arm8Sha3Feature) (B := 36)
    (S := [32, 33, 34, 35]) (by decide) (by decide) (by decide)
  simp only [List.mem_cons, List.mem_singleton, List.not_mem_nil, exists_eq_or_imp,
    exists_eq_left, or_false] at aes pmull sha2 sha512 sha3
  simp [mem_lcCpuFeatureDecode, aes, pmull, sha2, sha512, sha3]

/-- **Field values the masks misread.**  An AES field of 2 (AES and PMULL) stores no
    `ARM_AES`; a SHA1 field of 1 beside an AES field of 0 stores `ARM_AES`; a SHA2 field
    of 2 (SHA-256 and SHA-512) stores no `ARM_SHA2`. -/
theorem lcCpuFeatureAvailable_field_two :
    (idAa64isar0Field 0x20 4 = 2 ∧
      .armAes ∉ (lcCpuFeatureAvailable 0x20 lcCpuFeatureUnset).2) ∧
    (idAa64isar0Field 0x100 4 = 0 ∧ idAa64isar0Field 0x100 8 = 1 ∧
      .armAes ∈ (lcCpuFeatureAvailable 0x100 lcCpuFeatureUnset).2) ∧
    (idAa64isar0Field 0x2000 12 = 2 ∧
      .armSha2 ∉ (lcCpuFeatureAvailable 0x2000 lcCpuFeatureUnset).2) := by
  decide

/-! ### The interface over whole runs -/

/-- `LC_CPU_FEATURE_ARM`, which `lc_cpu_feature_disable` stores. -/
def lcCpuFeatureArm : Finset CpuFeature := {.arm}

/-- The calls of the interface. -/
inductive CpuCall
  | disable
  | enable
  | set (feature : Finset CpuFeature)
  | available

/-- One call on the global `features`: the new global, and what the call returns
    (`lc_cpu_feature_available` only); `reg` is what the register read gives. -/
def cpuStep (reg : UInt64) (features : Finset CpuFeature) :
    CpuCall → Finset CpuFeature × Option (Finset CpuFeature)
  | .disable => (lcCpuFeatureArm, none)
  | .enable => (lcCpuFeatureUnset, none)
  | .set feature => (feature, none)
  | .available => ((lcCpuFeatureAvailable reg features).1,
      some (lcCpuFeatureAvailable reg features).2)

/-- The values a run of calls returns, in order, for a step function on states `σ`. -/
def runCalls {σ : Type} (step : σ → CpuCall → σ × Option (Finset CpuFeature)) :
    σ → List CpuCall → List (Finset CpuFeature)
  | _, [] => []
  | s, c :: cs => (step s c).2.toList ++ runCalls step (step s c).1 cs

/-- A step function that a map `abs` sends, step by step, to another returns what the
    other returns along every run. -/
theorem runCalls_simulate {σ τ : Type} {step : σ → CpuCall → σ × Option (Finset CpuFeature)}
    {step' : τ → CpuCall → τ × Option (Finset CpuFeature)} (abs : σ → τ)
    (h : ∀ s c, (step s c).2 = (step' (abs s) c).2 ∧ abs (step s c).1 = (step' (abs s) c).1)
    (s : σ) (cs : List CpuCall) : runCalls step s cs = runCalls step' (abs s) cs := by
  induction cs generalizing s with
  | nil => rfl
  | cons c cs ih => simp only [runCalls, ih, (h s c).1, (h s c).2]

/-- The set callers see for a value of the global: the stored set, or the register's
    while it is `LC_CPU_FEATURE_UNSET`. -/
def visible (reg : UInt64) (features : Finset CpuFeature) : Finset CpuFeature :=
  if features = lcCpuFeatureUnset then lcCpuFeatureDecode reg else features

/-- What the interface is for: a cell holding the set callers see, which `available`
    returns and only `disable`, `enable` and `set` change. -/
def cellStep (reg : UInt64) (seen : Finset CpuFeature) :
    CpuCall → Finset CpuFeature × Option (Finset CpuFeature)
  | .disable => (lcCpuFeatureArm, none)
  | .enable => (lcCpuFeatureDecode reg, none)
  | .set feature => (visible reg feature, none)
  | .available => (seen, some seen)

theorem lcCpuFeatureDecode_ne_unset (reg : UInt64) :
    lcCpuFeatureDecode reg ≠ lcCpuFeatureUnset := by
  intro h
  have harm : CpuFeature.arm ∈ lcCpuFeatureDecode reg := mem_lcCpuFeatureDecode.2 (by simp)
  simp [h, lcCpuFeatureUnset] at harm

theorem visible_visible (reg : UInt64) (features : Finset CpuFeature) :
    visible reg (visible reg features) = visible reg features := by
  unfold visible
  split_ifs with h h' <;> simp_all [lcCpuFeatureDecode_ne_unset]

theorem lcCpuFeatureAvailable_eq (reg : UInt64) (features : Finset CpuFeature) :
    lcCpuFeatureAvailable reg features = (visible reg features, visible reg features) := rfl

/-- **Lazy reading is a cell.**  Along every run of calls from every value of the global,
    the interface returns what the cell returns from the set callers see: the register is
    decoded once, and the set `lc_cpu_feature_available` returns changes only at
    `disable`, `enable` and `set`. -/
theorem cpuRun_refines (reg : UInt64) (features : Finset CpuFeature) (cs : List CpuCall) :
    runCalls (cpuStep reg) features cs = runCalls (cellStep reg) (visible reg features) cs := by
  refine runCalls_simulate (visible reg) (fun s c => ?_) features cs
  cases c with
  | disable => exact ⟨rfl, if_neg (show lcCpuFeatureArm ≠ lcCpuFeatureUnset by decide)⟩
  | enable => exact ⟨rfl, if_pos rfl⟩
  | set feature => exact ⟨rfl, rfl⟩
  | available => exact ⟨rfl, visible_visible reg s⟩

end Leancrypto.Init
