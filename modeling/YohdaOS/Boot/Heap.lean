import YohdaOS.Boot.Paging
import YohdaOS.Mmi.Store

/-!
# The heap in physical memory

The allocators work on addresses that the page directory translates.  They write into their own
region only, so the directory stays as it is, and every byte they hand out has its own cell of
physical memory from `MM_BASE` on.
-/

namespace YohdaOS

open ByteMem BinaryBlocks Objects

/-! ## Where the allocators write -/

section Region

variable {s₀ : Mm} {r : MmRun} (h : MmRunInv s₀ r)

include h

/-- The objects lie in the heap. -/
theorem MmRunInv.holds_le {p : ℕ × ℕ} (hp : r.Holds p) :
    p.1 + p.2 ≤ r.s.bm.heapBase + r.s.bm.heapSize := by
  obtain ⟨pb, lost, B, hinv, hblocks, hfixed⟩ := h
  rcases hp with hp | ⟨i, hi, a, ha, rfl⟩
  · rw [hblocks, ← range_congr hfixed.toSameBud] at hp
    obtain ⟨b, hb, rfl⟩ := List.mem_map.1 hp
    obtain ⟨hord, hidx⟩ := hinv.bud.real b (List.mem_cons_of_mem _ (List.mem_append_right _ hb))
    exact hinv.layout.buddy.blockAddr_end hord hidx
  · have hsec := hinv.sec_bounds
    have hbounds := hinv.chunk_bounds hi ha
    simp only
    omega

theorem MmRunInv.base_le : (r.s.bud 0).bmp.base ≤ r.s.bm.heapBase := by
  obtain ⟨pb, lost, B, hinv, -⟩ := h
  have L := hinv.layout.buddy
  have hle := L.base_hdr 0 L.dep_pos
  have hhdr := L.hdr_le
  omega

/-- A step writes between the first bitmap and the end of the heap. -/
theorem MmRunInv.step_frame {r' : MmRun} (hstep : MmStep r r') :
    Frame (r.s.bud 0).bmp.base (r.s.bm.heapBase + r.s.bm.heapSize) r.s.mem r'.s.mem := by
  have hbase := h.base_le
  -- what an object covers lies in the heap
  have hobj {p : ℕ × ℕ} (hp : r.Holds p) {m : Mem} (hm : Frame p.1 (p.1 + p.2) r.s.mem m) :
      Frame (r.s.bud 0).bmp.base (r.s.bm.heapBase + r.s.bm.heapSize) r.s.mem m :=
    hm.mono (hbase.trans (h.holds_ge hp)) (h.holds_le hp)
  cases hstep with
  | alloc size hfree =>
    obtain ⟨pb, lost, B, hinv, -⟩ := h
    rw [MmRun.alloc_state]
    exact (yalloc_frame hinv hfree).mono le_rfl (Nat.le_add_right _ _)
  | freeBlock p hp s hs => exact (h.freeBlock_frame hp hs).mono le_rfl (Nat.le_add_right _ _)
  | freeChunk i a hi ha s hs =>
    have hle := h.holds_le (p := (a, 16 * 2 ^ i)) (Or.inr ⟨i, hi, a, ha, rfl⟩)
    have hframe := h.freeChunk_frame hi ha hs
    obtain ⟨pb, lost, B, hinv, -⟩ := h
    have hsec := hinv.sec_bounds
    have hbounds := hinv.chunk_bounds hi ha
    exact hframe.mono (by omega) (by omega)
  | writeBlock p hp m hm => exact hobj (Or.inl hp) hm
  | writeChunk i a hi ha m hm => exact hobj (p := (a, 16 * 2 ^ i)) (Or.inr ⟨i, hi, a, ha, rfl⟩) hm

end Region

/-- So does a run. -/
theorem mmRun_frame {s₀ : Mm} {r r' : MmRun} (h : MmRunInv s₀ r)
    (hrun : Relation.ReflTransGen MmStep r r') : MmRunInv s₀ r' ∧
      Frame (s₀.bud 0).bmp.base (s₀.bm.heapBase + s₀.bm.heapSize) r.s.mem r'.s.mem := by
  induction hrun with
  | refl => exact ⟨h, Frame.refl _ _ _⟩
  | tail _ hstep ih =>
    obtain ⟨hinv, hframe⟩ := ih
    refine ⟨mmStep_inv hinv hstep, hframe.trans ?_⟩
    have hmine := hinv.step_frame hstep
    obtain ⟨-, -, -, -, -, hfixed⟩ := hinv
    rw [hfixed.bmp, hfixed.bm] at hmine
    exact hmine

section Start

variable {s : Mm} {n : ℤ} (hfit : n < 0x3E000000) (hok : 0 ≤ (mmInit s n).1)

include hfit hok

/-- `mm_init` keeps to the region it was given. -/
theorem mmInit_region (hpads : PadsEvery n) :
    0xC2000000 ≤ ((mmInit s n).2.bud 0).bmp.base ∧
      (mmInit s n).2.bm.heapBase + (mmInit s n).2.bm.heapSize ≤ 0xC2000000 + n.toNat ∧
      Frame 0xC2000000 (0xC2000000 + n.toNat) s.mem (mmInit s n).2.mem := by
  obtain ⟨m, hm, s₁, rfl, hpost, hdep, hpool⟩ := mmInit_post hfit hok
  have L := hpost.layout
  have ho : 8 < s₁.bm.dep := by omega
  have hpad : Padded s₁ := fun i hi => by
    rw [L.num i hi]
    exact hpost.pads_iff.1 hpads i hi
  have hfree : HasFree s₁ 263848 := by
    have hnum := L.num_ge 8 ho
    have hbits := L.num_le_bits ho
    refine ⟨8, isClass_init hdep, 0, by omega, ?_⟩
    rw [← Bool.not_eq_true, hpost.bit 8 ho 0 (by omega), padStart_of_not_dvd (hpad 8 ho)]
    omega
  obtain ⟨pb, hclass, hptr, -, hinv, hsame, hf⟩ :=
    budGrant_spec (budInv_init hpost hpad) (by decide) hfree
  have hcall : budAlloc P32.listOps s₁ 263848 = _budAlloc s₁ 263848 := by
    rw [budAlloc_init, if_neg (by rw [hptr]; exact Nat.ne_of_gt (BudInv.addr_pos L pb))]
  rw [hcall, hptr, Ptr.val_addr] at hpool
  obtain ⟨hord, hidx⟩ := hinv.real pb List.mem_cons_self
  have hend := (hsame.layout L).blockAddr_end hord hidx
  have hlen : 2048 * 2 ^ pb.ord = 524288 := by rw [hclass.unique (isClass_init hdep)]; rfl
  have hblock : (_budAlloc s₁ 263848).2.blockAddr pb = s₁.blockAddr pb := by
    rw [Mm.blockAddr, Mm.blockAddr, hsame.bm]
  rw [hsame.bm, hblock, hlen] at hend
  have hbase : 0xC2000000 < (s₁.bud 0).bmp.base := hpost.base_lt
  have hstop : s₁.bm.heapBase + s₁.bm.heapSize ≤ 0xC2000000 + m := hpost.end_le
  have hge : s₁.bm.heapBase ≤ s₁.blockAddr pb := Nat.le_add_right _ _
  have hle := L.base_hdr 0 L.dep_pos
  have hhdr := L.hdr_le
  have hf₁ : Frame 0xC2000000 s₁.bm.heapBase s.mem s₁.mem := hpost.frame
  rw [Int.toNat_natCast, hpool.bm, hpool.bud, hsame.bm]
  refine ⟨?_, hstop, ?_⟩
  · rw [hsame.bmp]
    exact hbase.le
  · exact ((hf₁.mono le_rfl (by omega)).trans (hf.mono (by omega) (by omega))).trans
      (hpool.frame.mono (by omega) (by simp only [Int.toNat_natCast]; omega))

end Start

/-! ## What stands behind it -/

namespace P32.Boot

open Paging

/-- What the kernel sees of the memory. -/
def window (m : Mem) : Mem := ⟨fun v => if virtBase ≤ v then m.byte (v - virtBase) else 0⟩

/-- The memory of which the kernel sees `virt`. -/
def backing (m virt : Mem) : Mem :=
  ⟨fun p => if p < 0x40000000 then virt.byte (p + virtBase) else m.byte p⟩

theorem window_byte (m : Mem) {v : ℕ} (hv : virtBase ≤ v) :
    (window m).byte v = m.byte (v - virtBase) :=
  if_pos hv

theorem backing_byte (m virt : Mem) {p : ℕ} (hp : p < 0x40000000) :
    (backing m virt).byte p = virt.byte (p + virtBase) :=
  if_pos hp

theorem backing_frame {m virt : Mem} {n : ℕ}
    (hf : Frame 0xC2000000 (0xC2000000 + n) (window m) virt) :
    Frame MM_BASE (MM_BASE + n) m (backing m virt) := by
  intro p hp
  by_cases hlt : p < 0x40000000
  · unfold MM_BASE at hp
    rw [backing_byte m virt hlt, hf _ (by unfold virtBase; omega),
      window_byte m (Nat.le_add_left _ _), Nat.add_sub_cancel]
  · exact if_neg hlt

/-- Writes that spare the directory spare the mapping. -/
theorem Mapped.of_frame {c : Cpu} {pdes lo hi : ℕ} {ident : Bool} (h : Mapped c pdes ident) {m : Mem}
    (hf : Frame lo hi c.mem m) (hlo : pdes + 4096 ≤ lo) : Mapped { c with mem := m } pdes ident := by
  refine ⟨h.mode, h.pse, h.cr3, fun k hk => ?_⟩
  rw [← h.directory k hk]
  exact hf.load32 (Or.inl (by omega))

/-- The mapping is that of the kernel, memory outside `n` bytes from `MM_BASE` on is as it was, and
every byte that is held has a cell there. -/
structure Backed (c₀ c : Cpu) (r : MmRun) (n : ℕ) : Prop where
  boot : BootOk c
  frame : Frame MM_BASE (MM_BASE + n) c₀.mem c.mem
  cell : ∀ p, r.Holds p → ∀ x, Covers p x → ∃ y, c.translate x = some y ∧
    MM_BASE ≤ y ∧ y < MM_BASE + n ∧ c.mem.byte y = r.s.mem.byte x

theorem backed_of_run {c₀ : Cpu} {pdes : ℕ} (halign : 4096 ∣ pdes) (hlow : pdes + 4096 ≤ 0x400000)
    (hm : Mapped c₀ pdes false) (ht : c₀.tlb.Coherent 22 c₀.walk) {frees inuses : ℕ} {n : ℤ}
    (hfit : n < 0x3E000000) (hok : 0 ≤ (mmInit (.boot (window c₀.mem) frees inuses) n).1)
    (hpads : PadsEvery n) {r : MmRun}
    (hrun : Relation.ReflTransGen MmStep (mmStart (.boot (window c₀.mem) frees inuses) n) r)
    {c : Cpu} (hc : Cpu.Fills { c₀ with mem := backing c₀.mem r.s.mem } c) :
    Backed c₀ c r n.toNat := by
  obtain ⟨hbase, hend, hinit⟩ := mmInit_region (s := .boot (window c₀.mem) frees inuses) hfit hok
    hpads
  obtain ⟨hinv, hframe⟩ := mmRun_frame (mmRun_inv rfl rfl hfit hok hpads .refl) hrun
  have hwindow : Frame 0xC2000000 (0xC2000000 + n.toNat) (window c₀.mem) r.s.mem :=
    hinit.trans (hframe.mono hbase hend)
  have hphys := backing_frame hwindow
  have hm' := hm.of_frame hphys (by unfold MM_BASE; omega)
  have ht' : Tlb.Coherent c₀.tlb 22 (Cpu.walk { c₀ with mem := backing c₀.mem r.s.mem }) := by
    intro q p hq v hv
    have hold := ht q p hq v hv
    by_cases hlt : v < 4294967296
    · rw [hm'.walk_eq halign hlt, ← hm.walk_eq halign hlt]
      exact hold
    · rw [Cpu.walk, if_neg hlt] at hold
      cases hold
  have hboot := bootOk_of_mapped halign (hc.mapped hm') (hc.coherent ht')
  refine ⟨hboot, by rw [hc.mem]; exact hphys, fun p hp x hx => ?_⟩
  have hge := hinv.holds_ge hp
  have hle := hinv.holds_le hp
  have hfirst := hinv.base_le
  obtain ⟨-, -, -, -, -, hfixed⟩ := hinv
  have hx' : p.1 ≤ x ∧ x < p.1 + p.2 := hx
  rw [hfixed.bm] at hge hle
  rw [hfixed.bm, hfixed.bmp] at hfirst
  refine ⟨x - virtBase, ?_, ?_⟩
  · rw [hboot.translate x (by omega), if_pos (by unfold virtBase; omega)]
  · unfold MM_BASE virtBase
    refine ⟨by omega, by omega, ?_⟩
    have hcell := backing_byte c₀.mem r.s.mem (show x - 0xC0000000 < 0x40000000 by omega)
    rw [hc.mem, hcell, virtBase, Nat.sub_add_cancel (by omega)]

/-- Booting and then `mm_init` with `n` bytes: whatever the callers of `yalloc` and `yfree` do, and
whatever translations the processor keeps, the heap stays where `MM_BASE` says. -/
def HeapBacked (s : Cpu) (pdes : ℕ) (n : ℤ) : Prop :=
  ∃ s₁ s₂, _start pdes s = some s₁ ∧ higherHalfStart pdes s₁ = some s₂ ∧ ∀ frees inuses,
    0 ≤ (mmInit (.boot (window s₂.mem) frees inuses) n).1 → ∀ r,
    Relation.ReflTransGen MmStep (mmStart (.boot (window s₂.mem) frees inuses) n) r → ∀ c,
    Cpu.Fills { s₂ with mem := backing s₂.mem r.s.mem } c → Backed s₂ c r n.toNat

theorem heap_backed (s : Cpu) (pdes : ℕ) (halign : 4096 ∣ pdes) (hlow : pdes + 4096 ≤ 0x400000)
    (hoff : s.cr0.testBit 31 = false) (hpae : s.cr4.testBit 5 = false)
    (hdata : Assembled s.mem pdes) (n : ℤ) (hfit : n < 0x3E000000) (hpads : PadsEvery n) :
    HeapBacked s pdes n := by
  obtain ⟨s₁, hstart, hm₁, htlb, -⟩ := _start_spec hoff hpae hdata
  have hc₁ : s₁.tlb.Coherent 22 s₁.walk := by
    rw [htlb]
    exact Tlb.coherent_empty _ _
  obtain ⟨s₂, hhigh, hm₂, hc₂, -⟩ := higherHalfStart_spec halign hlow hm₁ hc₁
  refine ⟨s₁, s₂, hstart, hhigh, fun frees inuses hok r hrun c hc => ?_⟩
  exact backed_of_run halign hlow hm₂ hc₂ hfit hok hpads hrun hc

theorem heap_backed_main :
    HeapBacked ⟨0, 0, 0, 0, 0, store32 ⟨fun _ => 0⟩ 0x101000 0x83, .empty⟩ 0x101000 0x20000000 :=
  heap_backed _ _ (by decide) (by decide) (by decide) (by decide) (assembled_zero 0x101000) _ (by decide)
    padsEvery_main

end P32.Boot

end YohdaOS
