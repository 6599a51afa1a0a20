import YohdaOS.Lib.Paging
import YohdaOS.Mmi.Core

/-!
# The first page directory

paging.asm turns paging on and pbl.asm takes the identity mapping away that it needed for that.  The
directory has pages of 4 MiB; the processor may keep translations until it is told to forget them.
-/

namespace YohdaOS.P32.Boot

open ByteMem Paging

/-- The registers and the physical memory of the boot code. -/
structure Cpu where
  ecx : ℕ
  edx : ℕ
  cr0 : ℕ
  cr3 : ℕ
  cr4 : ℕ
  mem : Mem
  tlb : Tlb

/-- The tables of 32-bit paging; `PSE` in `cr4` allows pages of 4 MiB. -/
def format (pse : Bool) : Format where
  width := 4
  fanout := 1024
  load := load32
  bits := 32
  large := fun s => s == 22 && pse

namespace Cpu

/-- 32-bit paging: bit 31 of `cr0` is set and `PAE`, bit 5 of `cr4`, is clear. -/
def Paging32 (s : Cpu) : Prop := s.cr0.testBit 31 = true ∧ s.cr4.testBit 5 = false

/-- What the tables of 32-bit paging say about `v`; an address has 32 bits. -/
def walk (s : Cpu) (v : ℕ) : Option ℕ :=
  if v < 4294967296 then (format (s.cr4.testBit 4)).walk s.mem (s.cr3 / 4096 * 4096) v [22, 12]
  else none

/-- Where an access to `v` goes; bit 31 of `cr0` turns paging on. -/
def translate (s : Cpu) (v : ℕ) : Option ℕ :=
  if s.cr0.testBit 31 then s.tlb.translate 22 s.walk v else some v

/-- `mov dword [a], w` -/
def store (s : Cpu) (a w : ℕ) : Option Cpu :=
  (s.translate a).map fun p => { s with mem := store32 s.mem p w }

/-- `mov cr3, v` forgets every translation. -/
def setCr3 (s : Cpu) (v : ℕ) : Cpu := { s with cr3 := v, tlb := .empty }

/-- So does `mov cr0, v` where it turns paging on. -/
def setCr0 (s : Cpu) (v : ℕ) : Cpu := { s with cr0 := v, tlb := .empty }

def invlpg (s : Cpu) (a : ℕ) : Cpu := { s with tlb := s.tlb.drop 22 a }

/-- Between two instructions the processor may keep and forget translations. -/
def Fills (s s' : Cpu) : Prop :=
  ∃ t : Tlb, s' = { s with tlb := t } ∧ ∀ q p, t q = some p →
    s.tlb q = some p ∨ ∀ v, v / 2 ^ 22 = q → s.walk v = some (p + v % 2 ^ 22)

end Cpu

def pdesLoop (pdes : ℕ) : ℕ → Cpu → Option Cpu
  | 0, _ => none
  | n + 1, s =>
    if s.ecx = 1024 then some s
    else (s.store (pdes + s.ecx * 4) s.edx).bind fun s =>
      pdesLoop pdes n { s with ecx := u32 (s.ecx + 1), edx := u32 (s.edx + 0x400000) }

/-- `_start`, up to the jump. -/
def _start (pdes : ℕ) (s : Cpu) : Option Cpu :=
  let s := { s with ecx := s.cr4 ||| 1 <<< 4 }
  let s := { s with cr4 := s.ecx }
  let s := { s with ecx := 768, edx := 0x83 }
  (pdesLoop pdes 257 s).map fun s =>
    let s := { s with ecx := pdes }
    let s := s.setCr3 s.ecx
    let s := { s with ecx := s.cr0 ||| 1 <<< 31 }
    s.setCr0 s.ecx

/-- The first two instructions of `higher_half_start`. -/
def higherHalfStart (pdes : ℕ) (s : Cpu) : Option Cpu :=
  (s.store (pdes + 0) 0).map fun s => s.invlpg (pdes + 0)

/-- `pdes` as it is assembled. -/
structure Assembled (m : Mem) (pdes : ℕ) : Prop where
  first : load32 m pdes = 0x83
  rest : ∀ k, 0 < k → k < 1024 → load32 m (pdes + k * 4) = 0

/-- Over memory that is zero. -/
theorem assembled_zero (pdes : ℕ) : Assembled (store32 ⟨fun _ => 0⟩ pdes 0x83) pdes := by
  refine ⟨load32_store32 _ _ (by decide), fun k hk _ => ?_⟩
  rw [load32_store32_of_disjoint _ _ (by omega)]
  exact load32_eq_zero fun _ _ _ => rfl

/-! ## The loop -/

/-- The directory with the entries from 768 up to `n` filled in. -/
def Directory (m : Mem) (pdes low n : ℕ) : Prop :=
  ∀ k < 1024, load32 m (pdes + k * 4) =
    if k = 0 then low else if 768 ≤ k ∧ k < n then 0x83 + (k - 768) * 0x400000 else 0

theorem Assembled.directory {m : Mem} {pdes : ℕ} (h : Assembled m pdes) :
    Directory m pdes 0x83 768 := by
  intro k hk
  by_cases h0 : k = 0
  · rw [if_pos h0, h0, Nat.zero_mul, Nat.add_zero]
    exact h.first
  · rw [if_neg h0, if_neg (by omega)]
    exact h.rest k (by omega) hk

theorem Directory.store {m : Mem} {pdes low n : ℕ} (h : Directory m pdes low n) (hlo : 768 ≤ n)
    (hhi : n < 1024) :
    Directory (store32 m (pdes + n * 4) (0x83 + (n - 768) * 0x400000)) pdes low (n + 1) := by
  intro k hk
  by_cases hkn : k = n
  · rw [hkn, load32_store32 _ _ (by omega), if_neg (by omega), if_pos (by omega)]
  · rw [load32_store32_of_disjoint _ _ (by omega), h k hk]
    have hiff : 768 ≤ k ∧ k < n ↔ 768 ≤ k ∧ k < n + 1 := by omega
    simp only [hiff]

theorem Cpu.store_of_off {s : Cpu} (h : s.cr0.testBit 31 = false) (a w : ℕ) :
    s.store a w = some { s with mem := store32 s.mem a w } := by
  rw [Cpu.store, Cpu.translate, if_neg (by rw [h]; decide)]
  rfl

/-- The loop fills the directory in and leaves everything else alone. -/
theorem pdesLoop_spec (pdes : ℕ) {low : ℕ} (d : ℕ) {s : Cpu} (hoff : s.cr0.testBit 31 = false)
    (hlo : 768 ≤ s.ecx) (hecx : s.ecx + d = 1024) (hedx : s.edx = 0x83 + (s.ecx - 768) * 0x400000)
    (hdir : Directory s.mem pdes low s.ecx) :
    ∃ edx m, pdesLoop pdes (d + 1) s = some { s with ecx := 1024, edx := edx, mem := m } ∧
      Directory m pdes low 1024 ∧ Frame pdes (pdes + 4096) s.mem m := by
  induction d generalizing s with
  | zero =>
    obtain ⟨ecx, edx, cr0, cr3, cr4, mem, tlb⟩ := s
    obtain rfl : ecx = 1024 := by simpa using hecx
    exact ⟨edx, mem, by rw [pdesLoop]; exact if_pos rfl, hdir, Frame.refl _ _ _⟩
  | succ d ih =>
    have hnext := hdir.store hlo (by omega)
    rw [← hedx] at hnext
    rw [pdesLoop, if_neg (by omega), Cpu.store_of_off hoff, Option.bind_some]
    have hu : u32 (s.ecx + 1) = s.ecx + 1 := u32_of_lt (by omega)
    have hv : u32 (s.edx + 0x400000) = s.edx + 0x400000 := u32_of_lt (by omega)
    simp only [hu, hv]
    obtain ⟨edx, m, hloop, hdir', hframe⟩ := ih (s := { s with
      ecx := s.ecx + 1, edx := s.edx + 0x400000, mem := store32 s.mem (pdes + s.ecx * 4) s.edx })
      hoff (by simp only; omega) (by simp only; omega) (by simp only; omega) hnext
    have hstore : Frame pdes (pdes + 4096) s.mem (store32 s.mem (pdes + s.ecx * 4) s.edx) :=
      (frame_store32 s.mem (pdes + s.ecx * 4) s.edx).mono (by omega) (by omega)
    exact ⟨edx, m, hloop, hdir', hstore.trans hframe⟩

/-! ## What the directory maps -/

/-- The kernel sees the first gigabyte of memory at `_virt_base`, and, while it boots, the first
4 MiB where they are. -/
def kernelMap (ident : Bool) (v : ℕ) : Option ℕ :=
  if virtBase ≤ v then some (v - virtBase)
  else if ident = true ∧ v < 0x400000 then some v else none

/-- Paging is on and the directory is in use. -/
structure Mapped (s : Cpu) (pdes : ℕ) (ident : Bool) : Prop where
  mode : s.Paging32
  pse : s.cr4.testBit 4 = true
  cr3 : s.cr3 = pdes
  directory : Directory s.mem pdes (if ident then 0x83 else 0) 1024

section Walk

variable {s : Cpu} {pdes : ℕ} {ident : Bool} (h : Mapped s pdes ident) (halign : 4096 ∣ pdes)

include h halign

theorem Mapped.walk_eq {v : ℕ} (hv : v < 4294967296) : s.walk v = kernelMap ident v := by
  have hk : v / 4194304 < 1024 := by omega
  have hentry : (format true).entry s.mem pdes 22 v =
      if v / 4194304 = 0 then (if ident then 0x83 else 0)
      else if 768 ≤ v / 4194304 ∧ v / 4194304 < 1024 then 0x83 + (v / 4194304 - 768) * 0x400000
      else 0 := by
    rw [← h.directory _ hk, Format.entry]
    show load32 s.mem (pdes + 4 * (v / 2 ^ 22 % 1024)) = _
    rw [show (2 : ℕ) ^ 22 = 4194304 from rfl, Nat.mod_eq_of_lt hk, Nat.mul_comm 4]
  -- a present entry of the directory names a large page
  have hpage {p : ℕ} (hp : p % 4194304 = 0) (hlt : p < 1073741824)
      (he : (format true).entry s.mem pdes 22 v = 0x83 + p) :
      (format true).walk s.mem pdes v [22, 12] = some (p + v % 4194304) := by
    rw [walk_large rfl he (by omega) (by omega)]
    have hbase : (format true).base (0x83 + p) 22 = p :=
      base_of_lt (show 0x83 + p < 4294967296 by omega)
        (show (0x83 + p) / 4194304 * 4194304 = p by omega)
    rw [hbase]
    rfl
  rw [Cpu.walk, if_pos hv, h.pse, h.cr3, Nat.div_mul_cancel halign]
  unfold kernelMap virtBase
  by_cases hhigh : 0xC0000000 ≤ v
  · rw [if_neg (by omega), if_pos (by omega)] at hentry
    rw [if_pos hhigh, hpage (by omega) (by omega) hentry]
    exact congrArg some (by omega)
  · rw [if_neg hhigh]
    by_cases hlow : v < 0x400000
    · rw [if_pos (by omega)] at hentry
      cases ident with
      | true =>
        rw [if_pos ⟨rfl, hlow⟩, hpage (p := 0) (by omega) (by omega) hentry]
        exact congrArg some (by omega)
      | false =>
        rw [if_neg (fun hc => Bool.false_ne_true hc.1), walk_absent]
        rw [hentry]
        rfl
    · rw [if_neg (by omega), if_neg (by omega)] at hentry
      rw [if_neg (fun hc => hlow hc.2), walk_absent]
      rw [hentry]

theorem Mapped.translate_eq (ht : s.tlb.Coherent 22 s.walk) {v : ℕ} (hv : v < 4294967296) :
    s.translate v = kernelMap ident v := by
  rw [Cpu.translate, if_pos h.mode.1, ht.translate_eq v, h.walk_eq halign hv]

end Walk

theorem Cpu.Fills.coherent {s s' : Cpu} (h : s.Fills s') (ht : s.tlb.Coherent 22 s.walk) :
    s'.tlb.Coherent 22 s'.walk := by
  obtain ⟨t, rfl, hfill⟩ := h
  intro q p hq v hv
  rcases hfill q p hq with hold | hnew
  · exact ht q p hold v hv
  · exact hnew v hv

theorem Cpu.Fills.mem {s s' : Cpu} (h : s.Fills s') : s'.mem = s.mem := by
  obtain ⟨t, rfl, -⟩ := h
  rfl

theorem Cpu.Fills.mapped {s s' : Cpu} (h : s.Fills s') {pdes : ℕ} {ident : Bool}
    (hm : Mapped s pdes ident) : Mapped s' pdes ident := by
  obtain ⟨t, rfl, -⟩ := h
  exact ⟨hm.mode, hm.pse, hm.cr3, hm.directory⟩

/-! ## Booting -/

theorem _start_spec {s : Cpu} {pdes : ℕ} (hoff : s.cr0.testBit 31 = false)
    (hpae : s.cr4.testBit 5 = false) (hdata : Assembled s.mem pdes) :
    ∃ s₁, _start pdes s = some s₁ ∧ Mapped s₁ pdes true ∧ s₁.tlb = .empty ∧
      Frame pdes (pdes + 4096) s.mem s₁.mem := by
  obtain ⟨edx, m, hloop, hdir, hframe⟩ := pdesLoop_spec pdes 256
    (s := { s with cr4 := s.cr4 ||| 1 <<< 4, ecx := 768, edx := 0x83 }) hoff le_rfl (by simp)
    (by simp) hdata.directory
  refine ⟨_, by rw [_start]; simp only [hloop, Option.map_some]; rfl, ?_, rfl, hframe⟩
  refine ⟨⟨?_, ?_⟩, ?_, rfl, hdir⟩
  · show (s.cr0 ||| 1 <<< 31).testBit 31 = true
    rw [Nat.testBit_or, Nat.one_shiftLeft, Nat.testBit_two_pow_self, Bool.or_true]
  · show (s.cr4 ||| 1 <<< 4).testBit 5 = false
    rw [Nat.testBit_or, hpae]
    decide
  · show (s.cr4 ||| 1 <<< 4).testBit 4 = true
    rw [Nat.testBit_or, Nat.one_shiftLeft, Nat.testBit_two_pow_self, Bool.or_true]

theorem Directory.clear {m : Mem} {pdes low n : ℕ} (h : Directory m pdes low n) :
    Directory (store32 m (pdes + 0) 0) pdes 0 n := by
  intro k hk
  by_cases h0 : k = 0
  · subst h0
    rw [if_pos rfl, Nat.zero_mul, load32_store32 _ _ (by decide)]
  · rw [load32_store32_of_disjoint _ _ (by omega), h k hk, if_neg h0, if_neg h0]

/-- The directory itself lies in the page whose mapping goes away. -/
theorem higherHalfStart_spec {s : Cpu} {pdes : ℕ} (halign : 4096 ∣ pdes)
    (hlow : pdes + 4096 ≤ 0x400000) (h : Mapped s pdes true) (ht : s.tlb.Coherent 22 s.walk) :
    ∃ s', higherHalfStart pdes s = some s' ∧ Mapped s' pdes false ∧
      s'.tlb.Coherent 22 s'.walk ∧ Frame pdes (pdes + 4096) s.mem s'.mem := by
  have hat : s.translate (pdes + 0) = some (pdes + 0) := by
    rw [h.translate_eq halign ht (by omega), kernelMap, virtBase, if_neg (by omega),
      if_pos ⟨rfl, by omega⟩]
  set s' : Cpu := { s with mem := store32 s.mem (pdes + 0) 0, tlb := s.tlb.drop 22 (pdes + 0) }
    with hs'
  have hm : Mapped s' pdes false := ⟨h.mode, h.pse, h.cr3, h.directory.clear⟩
  have hres : higherHalfStart pdes s = some s' := by
    rw [higherHalfStart, Cpu.store, hat]
    rfl
  refine ⟨s', hres, hm, ht.drop fun v hv => ?_,
    (frame_store32 s.mem (pdes + 0) 0).mono le_rfl (by omega)⟩
  by_cases hlt : v < 4294967296
  · rw [hm.walk_eq halign hlt, h.walk_eq halign hlt, kernelMap, kernelMap,
      if_neg (c := false = true ∧ v < 0x400000) (fun hc => Bool.false_ne_true hc.1),
      if_neg (c := true = true ∧ v < 0x400000) (by omega)]
  · rw [Cpu.walk, if_neg hlt, Cpu.walk, if_neg hlt]

def vmmVirtToPhy (virt : ℕ) : ℕ := toU32 ((virt : ℤ) - virtBase)

/-- What the kernel finds once paging.asm and pbl.asm have set up its mapping. -/
structure BootOk (s : Cpu) : Prop where
  mode : s.Paging32
  translate : ∀ v < 4294967296, s.translate v = if virtBase ≤ v then some (v - virtBase) else none
  phyToVirt : ∀ p < 0x40000000, s.translate (vmmPhyToVirt p) = some p
  virtToPhy : ∀ v p, v < 4294967296 → s.translate v = some p → vmmVirtToPhy v = p

theorem bootOk_of_mapped {s : Cpu} {pdes : ℕ} (halign : 4096 ∣ pdes) (h : Mapped s pdes false)
    (ht : s.tlb.Coherent 22 s.walk) : BootOk s := by
  have heq (v : ℕ) (hv : v < 4294967296) :
      s.translate v = if virtBase ≤ v then some (v - virtBase) else none := by
    rw [h.translate_eq halign ht hv, kernelMap,
      if_neg (c := false = true ∧ v < 0x400000) (fun hc => Bool.false_ne_true hc.1)]
  refine ⟨h.mode, heq, fun p hp => ?_, fun v p hv hp => ?_⟩
  · have hvirt : vmmPhyToVirt p = p + 0xC0000000 := u32_of_lt (by simp only [virtBase]; omega)
    rw [hvirt, heq _ (by omega), virtBase, if_pos (by omega), Nat.add_sub_cancel]
  · rw [heq v hv] at hp
    split_ifs at hp with hge
    obtain rfl := Option.some.inj hp
    rw [vmmVirtToPhy, ← Int.ofNat_sub hge, toU32_natCast (by omega)]

/-- Whatever translations the processor keeps on the way, `_start` maps the first gigabyte at
`_virt_base` and the first 4 MiB where they are, `higher_half_start` takes the second mapping away
for good, and nothing but the directory is written. -/
def Boots (s : Cpu) (pdes : ℕ) : Prop :=
  ∃ s₁, _start pdes s = some s₁ ∧ ∀ s₂, s₁.Fills s₂ →
    (∀ v < 4294967296, s₂.translate v = kernelMap true v) ∧
    ∃ s₃, higherHalfStart pdes s₂ = some s₃ ∧ ∀ s₄, s₃.Fills s₄ →
      BootOk s₄ ∧ Frame pdes (pdes + 4096) s.mem s₄.mem

end YohdaOS.P32.Boot
