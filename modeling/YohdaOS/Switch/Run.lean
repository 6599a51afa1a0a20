import YohdaOS.Switch.Core

/-!
# Contexts are coroutines

A suspended context has the registers of its call of `context_switch` in a frame on its own stack, and
its slot points to the frame.  `Suspended` says so; every step of the others keeps it, a switch makes
it true of the context it leaves, and it makes the registers of the context it resumes those that the
frame holds.
-/

namespace YohdaOS.P32.Switch

open ByteMem

/-- The registers that a call of `context_switch` keeps. -/
@[ext] structure Saved where
  ebp : Word
  ebx : Word
  esi : Word
  edi : Word
  esp : Word
  eip : Word
deriving DecidableEq

def Cpu.saved (s : Cpu) : Saved :=
  ⟨s.reg .ebp, s.reg .ebx, s.reg .esi, s.reg .edi, s.reg .esp, s.eip⟩

theorem Cpu.saved_esp (s : Cpu) : s.saved.esp = s.reg .esp := rfl

variable {ι : Type} {L : Layout ι} {m m' : Mem} {c d : ι} {sv : Saved}

/-- The frame of a suspended context is on its stack, and its slot points to it. -/
structure Suspended (L : Layout ι) (m : Mem) (c : ι) (sv : Saved) : Prop where
  bottom : L.lo c + 20 ≤ sv.esp.toNat
  top : sv.esp.toNat ≤ L.hi c
  slot : load32 m (L.slot c) = sv.esp.toNat - 20
  ebp : load32 m (sv.esp.toNat - 20) = sv.ebp.toNat
  ebx : load32 m (sv.esp.toNat - 16) = sv.ebx.toNat
  esi : load32 m (sv.esp.toNat - 12) = sv.esi.toNat
  edi : load32 m (sv.esp.toNat - 8) = sv.edi.toNat
  eip : load32 m (sv.esp.toNat - 4) = sv.eip.toNat

/-- The addresses of a context: its stack and its slot. -/
def Layout.Area (L : Layout ι) (c : ι) (x : ℕ) : Prop :=
  (L.lo c ≤ x ∧ x < L.hi c) ∨ (L.slot c ≤ x ∧ x < L.slot c + 4)

theorem load32_congr {a : ℕ} (h : ∀ x, a ≤ x → x < a + 4 → m'.byte x = m.byte x) :
    load32 m' a = load32 m a := by
  unfold load32 load8
  rw [h a (by omega) (by omega), h (a + 1) (by omega) (by omega), h (a + 2) (by omega) (by omega),
    h (a + 3) (by omega) (by omega)]

theorem Suspended.congr (h : Suspended L m c sv)
    (heq : ∀ x, L.Area c x → m'.byte x = m.byte x) : Suspended L m' c sv := by
  have hbottom := h.bottom
  have htop := h.top
  have hstack {a : ℕ} (hlo : L.lo c ≤ a) (hhi : a + 4 ≤ L.hi c) : load32 m' a = load32 m a :=
    load32_congr fun x hx hx' => heq x (Or.inl ⟨by omega, by omega⟩)
  refine ⟨h.bottom, h.top, ?_, ?_, ?_, ?_, ?_, ?_⟩
  · exact (load32_congr fun x hx hx' => heq x (Or.inr ⟨hx, hx'⟩)).trans h.slot
  · exact (hstack (by omega) (by omega)).trans h.ebp
  · exact (hstack (by omega) (by omega)).trans h.ebx
  · exact (hstack (by omega) (by omega)).trans h.esi
  · exact (hstack (by omega) (by omega)).trans h.edi
  · exact (hstack (by omega) (by omega)).trans h.eip

/-! ## context_switch -/

theorem loadWord_of_toNat {a v : Word} (h : load32 m a.toNat = v.toNat) : loadWord m a = v := by
  rw [loadWord, h, BitVec.ofNat_toNat, BitVec.setWidth_eq]

/-- The memory after the call and the pushes. -/
def pushedMem (s : Cpu) : Mem :=
  storeWord (storeWord (storeWord (storeWord (storeWord s.mem (s.reg .esp - 4) s.eip)
    (s.reg .esp - 4 - 4) (s.reg .edi)) (s.reg .esp - 4 - 4 - 4) (s.reg .esi))
    (s.reg .esp - 4 - 4 - 4 - 4) (s.reg .ebx)) (s.reg .esp - 4 - 4 - 4 - 4 - 4) (s.reg .ebp)

/-- The memory after the store of the stack pointer. -/
def switchedMem (s : Cpu) (old : Word) : Mem :=
  storeWord (pushedMem s) old (s.reg .esp - 4 - 4 - 4 - 4 - 4)

theorem callSwitch_mem (s : Cpu) : (callSwitch s).mem = switchedMem s
    (loadWord (storeWord s.mem (s.reg .esp - 4) s.eip) (s.reg .esp - 4 + 4)) := by
  simp [callSwitch, contextSwitch, Cpu.exec, Cpu.pushWord, Cpu.set, switchedMem, pushedMem]

theorem callSwitch_saved (s : Cpu) {new : Word}
    (hnew : loadWord (storeWord s.mem (s.reg .esp - 4) s.eip) (s.reg .esp - 4 + 8) = new) :
    (callSwitch s).saved = ⟨loadWord (callSwitch s).mem new, loadWord (callSwitch s).mem (new + 4),
      loadWord (callSwitch s).mem (new + 4 + 4), loadWord (callSwitch s).mem (new + 4 + 4 + 4),
      new + 4 + 4 + 4 + 4 + 4, loadWord (callSwitch s).mem (new + 4 + 4 + 4 + 4)⟩ := by
  rw [← hnew]
  simp [callSwitch, contextSwitch, Cpu.exec, Cpu.pushWord, Cpu.set, Cpu.saved]

theorem toNat_sub_four {a : Word} {n k : ℕ} (h : a.toNat = n - k) (hk : k + 4 ≤ n) :
    (a - 4).toNat = n - (k + 4) := by
  bv_omega

/-- The pushed words, one below the other. -/
theorem pushedMem_eq (s : Cpu) {n : ℕ} (hn : (s.reg .esp).toNat = n) (h : 20 ≤ n) :
    pushedMem s = store32 (store32 (store32 (store32 (store32 s.mem (n - 4) s.eip.toNat)
      (n - 8) (s.reg .edi).toNat) (n - 12) (s.reg .esi).toNat) (n - 16) (s.reg .ebx).toNat)
      (n - 20) (s.reg .ebp).toNat := by
  have h₁ := toNat_sub_four (k := 0) hn (by omega)
  have h₂ := toNat_sub_four h₁ (by omega)
  have h₃ := toNat_sub_four h₂ (by omega)
  have h₄ := toNat_sub_four h₃ (by omega)
  have h₅ := toNat_sub_four h₄ (by omega)
  simp only [pushedMem, storeWord, h₁, h₂, h₃, h₄, h₅]

theorem toNat_slot (L : Layout ι) (c : ι) : (BitVec.ofNat 32 (L.slot c)).toNat = L.slot c := by
  have := L.slot_lt c
  rw [BitVec.toNat_ofNat]
  omega

section

variable {s : Sys ι}

/-- What a call writes: the frame on the stack of the caller, and its slot. -/
theorem Sys.Calls.mem (h : s.Calls L d) : (callSwitch s.cpu).mem =
    store32 (pushedMem s.cpu) (L.slot s.run) ((s.cpu.reg .esp).toNat - 20) := by
  have hroom := h.room
  have hinside := h.inside
  have hhi := L.hi_lt s.run
  have hold : loadWord (storeWord s.cpu.mem (s.cpu.reg .esp - 4) s.cpu.eip)
      (s.cpu.reg .esp - 4 + 4) = BitVec.ofNat 32 (L.slot s.run) := by
    rw [BitVec.sub_add_cancel, ← h.old, loadWord, storeWord,
      load32_store32_of_disjoint _ _ (by bv_omega), loadWord]
  have hsp : (s.cpu.reg .esp - 4 - 4 - 4 - 4 - 4).toNat = (s.cpu.reg .esp).toNat - 20 := by
    bv_omega
  rw [callSwitch_mem, hold, switchedMem, storeWord, toNat_slot, hsp]

/-- What a call does to the memory elsewhere. -/
theorem Sys.Calls.byte_of_not_area (h : s.Calls L d) {x : ℕ} (hx : ¬L.Area s.run x) :
    (callSwitch s.cpu).mem.byte x = s.cpu.mem.byte x := by
  have hroom := h.room
  have hinside := h.inside
  unfold Layout.Area at hx
  rw [h.mem, frame_store32 _ _ _ x (by omega), pushedMem_eq _ rfl (by omega),
    frame_store32 _ _ _ x (by omega), frame_store32 _ _ _ x (by omega),
    frame_store32 _ _ _ x (by omega), frame_store32 _ _ _ x (by omega),
    frame_store32 _ _ _ x (by omega)]

/-- The context that calls `context_switch` is suspended. -/
theorem Sys.Calls.suspended (h : s.Calls L d) :
    Suspended L (callSwitch s.cpu).mem s.run s.cpu.saved := by
  have hroom := h.room
  have hinside := h.inside
  have hapart := L.apart s.run s.run
  have hlt := (s.cpu.reg .esp).isLt
  generalize hn : (s.cpu.reg .esp).toNat = n at *
  have hesp : s.cpu.saved.esp.toNat = n := hn
  have hframe {a : ℕ} (hlo : n - 20 ≤ a) (hhi : a + 4 ≤ n) :
      load32 (callSwitch s.cpu).mem a = load32 (pushedMem s.cpu) a := by
    rw [h.mem, load32_store32_of_disjoint _ _ (by omega)]
  have hpushed := pushedMem_eq s.cpu hn (by omega)
  refine ⟨by omega, by omega, ?_, ?_, ?_, ?_, ?_, ?_⟩
  · rw [h.mem, hn, load32_store32 _ _ (by omega), hesp]
  · rw [hesp, hframe (by omega) (by omega), hpushed, load32_store32 _ _ (BitVec.isLt _)]
    rfl
  · rw [hesp, hframe (by omega) (by omega), hpushed, load32_store32_of_disjoint _ _ (by omega),
      load32_store32 _ _ (BitVec.isLt _)]
    rfl
  · rw [hesp, hframe (by omega) (by omega), hpushed, load32_store32_of_disjoint _ _ (by omega),
      load32_store32_of_disjoint _ _ (by omega), load32_store32 _ _ (BitVec.isLt _)]
    rfl
  · rw [hesp, hframe (by omega) (by omega), hpushed, load32_store32_of_disjoint _ _ (by omega),
      load32_store32_of_disjoint _ _ (by omega), load32_store32_of_disjoint _ _ (by omega),
      load32_store32 _ _ (BitVec.isLt _)]
    rfl
  · rw [hesp, hframe (by omega) (by omega), hpushed, load32_store32_of_disjoint _ _ (by omega),
      load32_store32_of_disjoint _ _ (by omega), load32_store32_of_disjoint _ _ (by omega),
      load32_store32_of_disjoint _ _ (by omega), load32_store32 _ _ (BitVec.isLt _)]
    rfl

theorem Layout.not_area (L : Layout ι) (hne : c ≠ d) {x : ℕ} (hx : L.Area c x) : ¬L.Area d x := by
  have hstack := L.stackApart c d hne
  have hslot := L.slotApart c d hne
  have hcd := L.apart c d
  have hdc := L.apart d c
  unfold Layout.Area at *
  omega

/-- The context that is resumed has the registers of its frame. -/
theorem Sys.Calls.resumed (h : s.Calls L d) (hne : d ≠ s.run) (hd : Suspended L s.cpu.mem d sv) :
    (callSwitch s.cpu).saved = sv := by
  have hroom := h.room
  have hinside := h.inside
  have hhi := L.hi_lt s.run
  have hbottom := hd.bottom
  have hkept : Suspended L (callSwitch s.cpu).mem d sv :=
    hd.congr fun x hx => h.byte_of_not_area (L.not_area hne hx)
  have hnew : loadWord (storeWord s.cpu.mem (s.cpu.reg .esp - 4) s.cpu.eip)
      (s.cpu.reg .esp - 4 + 8) = sv.esp - 20 := by
    have harg : loadWord (storeWord s.cpu.mem (s.cpu.reg .esp - 4) s.cpu.eip)
        (s.cpu.reg .esp - 4 + 8) = loadWord s.cpu.mem (s.cpu.reg .esp + 4) := by
      have haddr : s.cpu.reg .esp - 4 + 8 = s.cpu.reg .esp + 4 := by bv_omega
      rw [haddr, loadWord, storeWord, load32_store32_of_disjoint _ _ (by bv_omega), loadWord]
    rw [harg, h.new]
    apply loadWord_of_toNat
    rw [toNat_slot, hd.slot]
    bv_omega
  rw [callSwitch_saved _ hnew]
  ext1
  · exact loadWord_of_toNat (by rw [← hkept.ebp]; congr 1; bv_omega)
  · exact loadWord_of_toNat (by rw [← hkept.ebx]; congr 1; bv_omega)
  · exact loadWord_of_toNat (by rw [← hkept.esi]; congr 1; bv_omega)
  · exact loadWord_of_toNat (by rw [← hkept.edi]; congr 1; bv_omega)
  · show sv.esp - 20 + 4 + 4 + 4 + 4 + 4 = sv.esp
    bv_omega
  · exact loadWord_of_toNat (by rw [← hkept.eip]; congr 1; bv_omega)

end

/-! ## proc_create -/

theorem procContext_byte (hsize : L.hi d = L.lo d + PROC_STACK_SIZE) (eip : Word) {x : ℕ}
    (hx : ¬L.Area d x) :
    (procContext m (L.lo d) (L.slot d) eip).byte x = m.byte x := by
  unfold Layout.Area at hx
  rw [PROC_STACK_SIZE] at hsize
  simp only [procContext, PROC_STACK_SIZE, sizeofIntrContext, sizeofProcContext, offsetEip]
  rw [frame_store32 _ _ _ x (by omega), frame_fill _ _ _ _ x (by omega),
    frame_store32 _ _ _ x (by omega)]

/-- The context of a new process is that of a suspended one. -/
theorem procContext_suspended (hsize : L.hi d = L.lo d + PROC_STACK_SIZE) (eip : Word) :
    Suspended L (procContext m (L.lo d) (L.slot d) eip) d
      ⟨0, 0, 0, 0, BitVec.ofNat 32 (L.hi d - sizeofIntrContext), eip⟩ := by
  have hhi := L.hi_lt d
  have hapart := L.apart d d
  rw [PROC_STACK_SIZE] at hsize
  have hesp : (BitVec.ofNat 32 (L.hi d - sizeofIntrContext)).toNat = L.lo d + 1968 := by
    rw [BitVec.toNat_ofNat, sizeofIntrContext]
    omega
  have hpc : L.lo d + PROC_STACK_SIZE - sizeofIntrContext - sizeofProcContext = L.lo d + 1948 := by
    simp only [PROC_STACK_SIZE, sizeofIntrContext, sizeofProcContext]
    omega
  have hmem : procContext m (L.lo d) (L.slot d) eip =
      store32 (fill (store32 m (L.slot d) (L.lo d + 1948)) (L.lo d + 1948) 0 20)
        (L.lo d + 1948 + 16) eip.toNat := by
    simp only [procContext, hpc]
    rfl
  have hzero {a : ℕ} (hlo : L.lo d + 1948 ≤ a) (hhi : a + 4 ≤ L.lo d + 1964) :
      load32 (procContext m (L.lo d) (L.slot d) eip) a = 0 := by
    rw [hmem, load32_store32_of_disjoint _ _ (by omega)]
    exact load32_eq_zero fun x hx hx' => byte_fill_zero _ (by omega) (by omega)
  refine ⟨?_, ?_, ?_, ?_, ?_, ?_, ?_, ?_⟩ <;> dsimp only <;> rw [hesp]
  · omega
  · omega
  · rw [hmem, load32_store32_of_disjoint _ _ (by omega), (frame_fill _ _ _ _).load32 (by omega),
      load32_store32 _ _ (by omega), Nat.add_sub_assoc (by decide)]
  · exact hzero (by omega) (by omega)
  · exact hzero (by omega) (by omega)
  · exact hzero (by omega) (by omega)
  · exact hzero (by omega) (by omega)
  · have haddr : L.lo d + 1968 - 4 = L.lo d + 1948 + 16 := by omega
    rw [hmem, haddr, load32_store32 _ _ (BitVec.isLt _)]

/-! ## Runs -/

namespace Sys

variable {s s' a b x y : Sys ι} {e : Event ι} {tr : List (Event ι)}

/-- A step of another context leaves the stack and the slot of a context alone. -/
theorem Step.byte (h : Step L s e s') (hc : c ≠ s.run) (he : ¬e.Makes c) {z : ℕ}
    (hz : L.Area c z) : s'.cpu.mem.byte z = s.cpu.mem.byte z := by
  cases h with
  | code cpu hkeep =>
    apply hkeep
    rcases hz with hstack | hslot
    · exact Or.inl ⟨c, hc, hstack⟩
    · exact Or.inr ⟨c, hslot⟩
  | create d entryPoint hne hsize =>
    have hcd : c ≠ d := by
      rintro rfl
      exact he rfl
    exact procContext_byte hsize _ (L.not_area hcd hz)
  | switch d hne hcall => exact hcall.byte_of_not_area (L.not_area hc hz)

theorem Step.run_ne (h : Step L s e s') (hc : c ≠ s.run) (he : ¬e.Resumes c) : c ≠ s'.run := by
  cases h with
  | code | create => exact hc
  | switch d => exact fun heq => he heq.symm

/-- The context is not running, and its frame is intact. -/
structure Asleep (L : Layout ι) (c : ι) (sv : Saved) (s : Sys ι) : Prop where
  run : c ≠ s.run
  mem : Suspended L s.cpu.mem c sv

theorem Asleep.step (hs : Asleep L c sv s) (he : ¬e.Resumes c ∧ ¬e.Makes c) (h : Step L s e s') :
    Asleep L c sv s' :=
  ⟨h.run_ne hs.run he.1, hs.mem.congr fun _ hz => h.byte hs.run he.2 hz⟩

/-- A suspended context stays so until a step resumes it or makes it anew. -/
theorem Asleep.trace (hs : Asleep L c sv b) (htr : Runs.Trace (Step L) b tr x)
    (hno : ∀ e ∈ tr, ¬e.Resumes c ∧ ¬e.Makes c) : Asleep L c sv x :=
  Runs.invariant_of_trace htr hs hno fun _ _ _ hs he hstep => hs.step he hstep

theorem Step.asleep_of_switch (h : Step L a (.switch d) b) : Asleep L a.run a.cpu.saved b := by
  cases h with
  | switch d hne hcall => exact ⟨hne.symm, hcall.suspended⟩

theorem Step.asleep_of_create {entryPoint : Word} (h : Step L a (.create c entryPoint) b) :
    Asleep L c ⟨0, 0, 0, 0, BitVec.ofNat 32 (L.hi c - sizeofIntrContext), L.start entryPoint⟩ b := by
  cases h with
  | create d entryPoint hne hsize => exact ⟨hne, procContext_suspended hsize _⟩

theorem Step.resumes (h : Step L x (.switch c) y) (hs : Suspended L x.cpu.mem c sv) :
    y.run = c ∧ y.cpu.saved = sv := by
  cases h with
  | switch d hne hcall => exact ⟨rfl, hcall.resumed hne hs⟩

/-- A context with room on its stack can put the arguments there and call `context_switch`. -/
theorem exists_calls (s : Sys ι) (d : ι) (hroom : L.lo s.run + 20 ≤ (s.cpu.reg .esp).toNat)
    (hin : (s.cpu.reg .esp).toNat + 8 ≤ L.hi s.run) :
    ∃ t, Step L s .code t ∧ t.run = s.run ∧ t.cpu.saved = s.cpu.saved ∧ t.Calls L d := by
  have hhi := L.hi_lt s.run
  have hapart := L.apart
  have hnext : (s.cpu.reg .esp + 4).toNat = (s.cpu.reg .esp).toNat + 4 := by bv_omega
  let new := loadWord s.cpu.mem (BitVec.ofNat 32 (L.slot d))
  let mem := storeWord (storeWord s.cpu.mem (s.cpu.reg .esp) (BitVec.ofNat 32 (L.slot s.run)))
    (s.cpu.reg .esp + 4) new
  have hbyte (z : ℕ) (hz : z < L.lo s.run ∨ L.hi s.run ≤ z) : mem.byte z = s.cpu.mem.byte z := by
    simp only [mem, storeWord]
    rw [frame_store32 _ _ _ z (by omega), frame_store32 _ _ _ z (by omega)]
  refine ⟨⟨{ s.cpu with mem := mem }, s.run⟩, .code s _ ?_, rfl, rfl, ⟨hroom, hin, ?_, ?_⟩⟩
  · rintro z (⟨c, hc, hz⟩ | ⟨c, hz⟩)
    · have := L.stackApart c s.run hc
      exact hbyte z (by omega)
    · have := hapart c s.run
      exact hbyte z (by omega)
  · apply loadWord_of_toNat
    simp only [mem, storeWord]
    rw [load32_store32_of_disjoint _ _ (by omega), load32_store32 _ _ (BitVec.isLt _)]
  · have hslot : loadWord mem (BitVec.ofNat 32 (L.slot d)) = new := by
      have := hapart d s.run
      rw [loadWord, toNat_slot, load32_congr fun z hz hz' => hbyte z (by omega), ← toNat_slot]
      rfl
    rw [hslot]
    apply loadWord_of_toNat
    simp only [mem, storeWord]
    rw [load32_store32 _ _ (BitVec.isLt _)]

/-- In every run over any set of contexts: a context that has called `context_switch` goes on behind
the call with its registers, and one that `proc_create` has made starts at its entry point with the
four registers zero. -/
theorem coroutines_ok (L : Layout ι) :
    (∀ a b x y d tr, Step L a (.switch d) b → Runs.Trace (Step L) b tr x →
      (∀ e ∈ tr, ¬e.Resumes a.run ∧ ¬e.Makes a.run) → Step L x (.switch a.run) y →
        y.run = a.run ∧ y.cpu.saved = a.cpu.saved) ∧
    (∀ a b x y c entryPoint tr, Step L a (.create c entryPoint) b → Runs.Trace (Step L) b tr x →
      (∀ e ∈ tr, ¬e.Resumes c ∧ ¬e.Makes c) → Step L x (.switch c) y →
        y.run = c ∧ y.cpu.saved = ⟨0, 0, 0, 0, BitVec.ofNat 32 (L.hi c - sizeofIntrContext),
          L.start entryPoint⟩) := by
  constructor
  · intro a b x y d tr hstart htr hno hback
    exact hback.resumes (hstart.asleep_of_switch.trace htr hno).mem
  · intro a b x y c entryPoint tr hstart htr hno hback
    exact hback.resumes (hstart.asleep_of_create.trace htr hno).mem

/-- The scheduler makes a process and switches to it, and the process switches back. -/
theorem coroutines_ok_process : ∃ (L : Layout (Option (Fin PROC_MAX))) (i : Fin PROC_MAX)
    (a b x y : Sys (Option (Fin PROC_MAX))),
    Step L a (.switch (some i)) b ∧ b.cpu.saved = ⟨0, 0, 0, 0, 0x3007B0, 0x100000⟩ ∧
      Runs.Trace (Step L) b [.code] x ∧ Step L x (.switch none) y ∧ y.cpu.saved = a.cpu.saved := by
  let p : Placement := ⟨0x80000, 0x90000, 0x200014, 0x201000, 0x300000, 0x100010, by decide, by decide,
    by decide, by decide, by decide, by decide, by decide, by decide, by decide, by decide⟩
  let i : Fin PROC_MAX := ⟨0, by decide⟩
  let boot : Cpu := ⟨fun r => if r = .esp then 0x8FF00 else 7, 0x100100, ⟨fun _ => 0⟩⟩
  let mem := procContext boot.mem (p.layout.lo (some i)) (p.layout.slot (some i))
    (p.layout.start 0x100000)
  have hmake : Step p.layout ⟨boot, none⟩ (.create (some i) 0x100000) ⟨{ boot with mem := mem }, none⟩ :=
    .create _ _ _ (by simp) rfl
  obtain ⟨a, hprep, harun, -, hacalls⟩ := exists_calls (L := p.layout)
    ⟨{ boot with mem := mem }, none⟩ (some i) (by decide) (by decide)
  have hnone : a.run = none := harun
  have hswitch := Step.switch a (some i) (by rw [hnone]; simp) hacalls
  obtain ⟨-, hsaved⟩ := (coroutines_ok p.layout).2 _ _ _ _ _ _ [.code] hmake
    (.cons hprep (.nil a)) (by simp [Event.Resumes, Event.Makes]) hswitch
  have hstart : (callSwitch a.cpu).saved = ⟨0, 0, 0, 0, 0x3007B0, 0x100000⟩ :=
    hsaved.trans (by decide)
  have hesp : (callSwitch a.cpu).reg .esp = 0x3007B0 := by
    rw [← Cpu.saved_esp, hstart]
  have hlo : p.layout.lo (some i) + 20 ≤ ((callSwitch a.cpu).reg .esp).toNat := by
    rw [hesp]
    decide
  have hhi : ((callSwitch a.cpu).reg .esp).toNat + 8 ≤ p.layout.hi (some i) := by
    rw [hesp]
    decide
  obtain ⟨x, hprep', hxrun, -, hxcalls⟩ := exists_calls (L := p.layout)
    ⟨callSwitch a.cpu, some i⟩ none hlo hhi
  have hback := Step.switch x none (by rw [hxrun]; simp) hxcalls
  have hcode : Runs.Trace (Step p.layout) ⟨callSwitch a.cpu, some i⟩ [.code] x :=
    .cons hprep' (.nil x)
  refine ⟨p.layout, i, a, _, x, _, hswitch, hstart, hcode, hback, ?_⟩
  refine ((coroutines_ok p.layout).1 a _ x _ (some i) [.code] hswitch hcode ?_ ?_).2
  · simp [Event.Resumes, Event.Makes]
  · rw [hnone]
    exact hback

end Sys

end YohdaOS.P32.Switch
