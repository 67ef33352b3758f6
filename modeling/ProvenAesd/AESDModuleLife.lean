import ProvenAesd.AESDLostBlocks

/-! The module over its loads and unloads: the device numbers it registers, its `cdev`,
and the kernel memory it takes, whichever step of a load fails. -/
namespace ProvenAesd.Driver
open BlockHeap Mealy DriverState

/-- `MKDEV`, and `MAJOR` of a device number. -/
def mkdev (major minor : ℕ) : ℕ := major <<< 20 ||| minor

def majorOf (dev : ℕ) : ℕ := dev >>> 20

def aesdMinor : ℕ := 0

structure KernelState where
  /-- The device numbers that are registered, by other drivers too. -/
  regions : Finset ℕ
  /-- The numbers under which the `cdev` of the device is found. -/
  cdevs : Finset ℕ
  loaded : Bool
  aesdMajor : ℕ
  device : DriverState

/-- `cdev_add` returns `added`. -/
def aesdSetupCdev (k : KernelState) (added : ℤ) : KernelState × ℤ :=
  let devno := mkdev k.aesdMajor aesdMinor
  if added = 0 then ({ k with cdevs := insert devno k.cdevs }, added) else (k, added)

/-- `aesd_init_module`, for which `alloc_chrdev_region` returns `region` and the number `dev`. -/
def aesdModuleInit (k : KernelState) (region : ℤ) (dev : ℕ) (added : ℤ) : KernelState × ℤ :=
  if region < 0 then (k, region)
  else
    let k := { k with
      regions := insert dev k.regions
      aesdMajor := majorOf dev
      device := { aesdInitModule with heap := k.device.heap } }
    let (k, result) := aesdSetupCdev k added
    if result ≠ 0 then ({ k with regions := k.regions.erase dev }, result) else (k, result)

def aesdModuleExit (k : KernelState) : KernelState :=
  let devno := mkdev k.aesdMajor aesdMinor
  { k with
    cdevs := k.cdevs.erase devno
    device := { k.device with heap := aesdCleanupModule k.device }
    regions := k.regions.erase devno }

inductive KernelCall
  | insmod (region : ℤ) (dev : ℕ) (added : ℤ)
  | call (call : DriverCall)
  | rmmod

/-- The module is loaded once at a time, and a load that returns an error leaves it
unloaded. The output is the block that the call loses. -/
def kernel : Machine KernelState KernelCall (Option ℕ) where
  step k
    | .insmod region dev added =>
      if k.loaded then (k, none)
      else
        let (k, result) := aesdModuleInit k region dev added
        ({ k with loaded := result = 0 }, none)
    | .call call =>
      if k.loaded then ({ k with device := (driver.step k.device call).1 }, lostBlock k.device call)
      else (k, none)
    | .rmmod => if k.loaded then ({ aesdModuleExit k with loaded := false }, none) else (k, none)

def kernelInit (others : Finset ℕ) : KernelState where
  regions := others
  cdevs := ∅
  loaded := false
  aesdMajor := 0
  device := aesdInitModule

/-- The kernel hands out a device number that is free, with the minor number asked for. -/
def FreeNumber (k : KernelState) : KernelCall → Prop
  | .insmod region dev _ => k.loaded = false → 0 ≤ region → dev ∉ k.regions ∧ dev%2^20 = aesdMinor
  | _ => True

instance (k : KernelState) (call : KernelCall) : Decidable (FreeNumber k call) :=
  match call with
  | .insmod region dev _ =>
    inferInstanceAs (Decidable (k.loaded = false → 0 ≤ region → dev ∉ k.regions ∧ dev%2^20 = aesdMinor))
  | .call _ | .rmmod => inferInstanceAs (Decidable True)

theorem mkdev_majorOf {dev : ℕ} (h : dev%2^20 = aesdMinor) : mkdev (majorOf dev) aesdMinor = dev := by
  rw [mkdev, majorOf, aesdMinor, Nat.or_zero, Nat.shiftLeft_eq, Nat.shiftRight_eq_div_pow]
  exact Nat.div_mul_cancel (Nat.dvd_of_mod_eq_zero h)

/-- The module is loaded, has its number registered beside those of others, and its memory
is accounted for. -/
structure Loaded (k : KernelState) (others : Finset ℕ) (lost : List ℕ) : Prop where
  wf : DeviceWf k.device
  accounted : Accounted k.device lost
  free : mkdev k.aesdMajor aesdMinor ∉ others
  regions_eq : k.regions = insert (mkdev k.aesdMajor aesdMinor) others
  cdevs_eq : k.cdevs = {mkdev k.aesdMajor aesdMinor}

/-- The module is not loaded, and has left nothing but the lost blocks. -/
structure Unloaded (k : KernelState) (others : Finset ℕ) (lost : List ℕ) : Prop where
  ledger : k.device.heap.Ledger
  live_iff : ∀ i, i ∈ k.device.heap.live ↔ i ∈ lost
  once : lost.Nodup
  regions_eq : k.regions = others
  cdevs_eq : k.cdevs = ∅

def ModuleInv (others : Finset ℕ) (k : KernelState) (lost : List ℕ) : Prop :=
  if k.loaded then Loaded k others lost else Unloaded k others lost

section Step

variable {k : KernelState} {others : Finset ℕ} {lost : List ℕ}

theorem freshDevice_owned (heap : Heap) :
    DriverState.owned { aesdInitModule with heap := heap } = [] := by
  have hnone : aesdInitModule.owned = [] := rfl
  exact hnone

theorem freshDevice_wf (heap : Heap) : DeviceWf { aesdInitModule with heap := heap } := by
  refine ⟨ringWf_init, ringFills_init, ?_, fun i hi => ?_, fun e he => ?_, fun h => absurd rfl h,
    Nat.two_pow_pos 63⟩
  · rw [freshDevice_owned]
    exact List.nodup_nil
  · rw [freshDevice_owned] at hi
    exact absurd hi List.not_mem_nil
  · have hnone : aesdInitModule.buffer.liveEntries = [] := rfl
    change e ∈ aesdInitModule.buffer.liveEntries at he
    rw [hnone] at he
    exact absurd he List.not_mem_nil

theorem Unloaded.accounted (h : Unloaded k others lost) :
    Accounted { aesdInitModule with heap := k.device.heap } lost := by
  have hnone := freshDevice_owned k.device.heap
  refine ⟨h.ledger, fun i => ?_, fun i _ => ?_, h.once⟩
  · rw [hnone]
    simp [h.live_iff]
  · rw [hnone]
    exact List.not_mem_nil

theorem Unloaded.insmod (h : Unloaded k others lost) (hunloaded : k.loaded = false) {region : ℤ}
    {dev : ℕ} {added : ℤ} (hfree : FreeNumber k (.insmod region dev added)) :
    ModuleInv others (kernel.step k (.insmod region dev added)).1 lost := by
  simp only [kernel, hunloaded, Bool.false_eq_true, if_false, aesdModuleInit]
  by_cases hregion : region < 0
  · have hne : region ≠ 0 := by omega
    simp only [if_pos hregion, hne, decide_false, ModuleInv, Bool.false_eq_true, if_false]
    exact ⟨h.ledger, h.live_iff, h.once, h.regions_eq, h.cdevs_eq⟩
  · obtain ⟨hnew, hminor⟩ := hfree hunloaded (by omega)
    have hdev := mkdev_majorOf hminor
    rw [h.regions_eq] at hnew
    simp only [if_neg hregion, aesdSetupCdev]
    by_cases hadded : added = 0
    · simp only [hadded, if_true, ne_eq, not_true_eq_false, if_false, decide_true, ModuleInv]
      refine ⟨freshDevice_wf _, h.accounted, ?_, ?_, ?_⟩
      · exact hdev.symm ▸ hnew
      · simp only [hdev, h.regions_eq]
      · simp only [hdev, h.cdevs_eq, insert_empty_eq]
    · simp only [hadded, ne_eq, not_false_eq_true, if_true, if_false, decide_false, ModuleInv,
        Bool.false_eq_true]
      refine ⟨h.ledger, h.live_iff, h.once, ?_, h.cdevs_eq⟩
      rw [h.regions_eq]
      exact Finset.erase_insert hnew

theorem Loaded.rmmod (h : Loaded k others lost) (hloaded : k.loaded = true) :
    ModuleInv others (kernel.step k .rmmod).1 lost := by
  obtain ⟨hledger, hlive⟩ := h.accounted.cleanup h.wf
  simp only [kernel, hloaded, if_true, ModuleInv, Bool.false_eq_true, if_false, aesdModuleExit]
  refine ⟨hledger, hlive, h.accounted.once, ?_, ?_⟩
  · rw [h.regions_eq]
    exact Finset.erase_insert h.free
  · simp only [h.cdevs_eq, Finset.erase_singleton]

theorem kernel_step_inv (h : ModuleInv others k lost) {call : KernelCall} (hfree : FreeNumber k call) :
    ModuleInv others (kernel.step k call).1 (lost ++ (kernel.step k call).2.toList) := by
  cases hloaded : k.loaded with
  | true =>
    have hmod : Loaded k others lost := by rwa [ModuleInv, if_pos hloaded] at h
    cases call with
    | insmod region dev added =>
      simp only [kernel, hloaded, if_true, Option.toList_none, List.append_nil]
      exact h
    | call call =>
      simp only [kernel, hloaded, if_true, ModuleInv]
      exact ⟨driverStep_wf hmod.wf call, hmod.accounted.step hmod.wf call, hmod.free, hmod.regions_eq,
        hmod.cdevs_eq⟩
    | rmmod =>
      have hnone : (kernel.step k .rmmod).2 = none := by simp only [kernel, hloaded, if_true]
      rw [hnone, Option.toList_none, List.append_nil]
      exact hmod.rmmod hloaded
  | false =>
    have hmod : Unloaded k others lost := by rwa [ModuleInv, hloaded] at h
    cases call with
    | insmod region dev added =>
      have hnone : (kernel.step k (.insmod region dev added)).2 = none := by
        simp only [kernel, hloaded, Bool.false_eq_true, if_false]
      rw [hnone, Option.toList_none, List.append_nil]
      exact hmod.insmod hloaded hfree
    | call call =>
      simp only [kernel, hloaded, Bool.false_eq_true, if_false, Option.toList_none, List.append_nil]
      exact h
    | rmmod =>
      simp only [kernel, hloaded, Bool.false_eq_true, if_false, Option.toList_none, List.append_nil]
      exact h

end Step

/-- Over any loads, failing ones included, calls and unloads, the module has its number
registered and its `cdev` in place exactly while it is loaded, it leaves the numbers of others
alone, and all that it ever leaves allocated are the buffers lost in refused writes. No block
is freed twice. -/
theorem module_leaves_only_lost_blocks (others : Finset ℕ) (calls : List KernelCall)
    (h : kernel.Guarded FreeNumber (kernelInit others) calls) :
    let k := kernel.final (kernelInit others) calls
    let lost := (kernel.outputs (kernelInit others) calls).reduceOption
    let devno := mkdev k.aesdMajor aesdMinor
    (k.loaded = false → k.regions = others ∧ k.cdevs = ∅ ∧ ∀ i, i ∈ k.device.heap.live ↔ i ∈ lost) ∧
      (k.loaded = true → devno ∉ others ∧ k.regions = insert devno others ∧ k.cdevs = {devno} ∧
        ∀ i, i ∈ k.device.heap.live ↔ i ∈ k.device.owned ∨ i ∈ lost) ∧
      lost.Nodup ∧ k.device.heap.Ledger := by
  intro k lost devno
  have hrun : ModuleInv others k lost := by
    apply h.history fun k _ outs => ModuleInv others k outs.reduceOption
    · exact ⟨Heap.ledger_empty, fun i => iff_of_false (Finset.notMem_empty i) List.not_mem_nil,
        List.nodup_nil, rfl, rfl⟩
    · intro k _ outs call hinv hfree
      have hnext := kernel_step_inv hinv hfree
      rw [List.reduceOption_append]
      cases hlost : (kernel.step k call).2 with
      | none =>
        rw [hlost] at hnext
        exact hnext
      | some i =>
        rw [hlost] at hnext
        exact hnext
  cases hloaded : k.loaded with
  | true =>
    have hmod : Loaded k others lost := by rwa [ModuleInv, if_pos hloaded] at hrun
    refine ⟨nofun, fun _ => ⟨hmod.free, hmod.regions_eq, hmod.cdevs_eq, hmod.accounted.live_iff⟩, ?_⟩
    exact ⟨hmod.accounted.once, hmod.accounted.ledger⟩
  | false =>
    have hmod : Unloaded k others lost := by rwa [ModuleInv, hloaded] at hrun
    exact ⟨fun _ => ⟨hmod.regions_eq, hmod.cdevs_eq, hmod.live_iff⟩, nofun, hmod.once, hmod.ledger⟩

/-- A load, a refused write behind an unfinished line, two loads that fail, and a load and
a line after them. -/
def lossyLife : List KernelCall :=
  let write (alloc : AllocChoice) (bytes : List UInt8) (hb : bytes.length < 2^63) : KernelCall :=
    .call (.write 0 (wholeWrite alloc bytes hb))
  [.insmod 0 (240*2^20) 0, write (.grant true fun _ => 0) [44] (by decide),
    write .refuse [45, 10] (by decide), .rmmod, .insmod (-16) 0 0, .insmod 0 (241*2^20) (-12),
    .insmod 0 (241*2^20) 0, write (.grant false fun _ => 0) [45, 10] (by decide), .rmmod]

theorem module_leaves_only_lost_blocks_lossy :
    let k := kernel.final (kernelInit {8*2^20}) lossyLife
    k.regions = {8*2^20} ∧ k.cdevs = ∅ ∧ (∀ i, i ∈ k.device.heap.live ↔ i ∈ [0]) := by
  intro k
  obtain ⟨hunloaded, -⟩ := module_leaves_only_lost_blocks {8*2^20} lossyLife (by decide +kernel)
  have hlost : (kernel.outputs (kernelInit {8*2^20}) lossyLife).reduceOption = [0] := by decide +kernel
  rw [← hlost]
  exact hunloaded (by decide +kernel)

end ProvenAesd.Driver
