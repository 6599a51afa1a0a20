import YohdaOS.Irq.Pic
import YohdaOS.Lib.Priority
import YohdaOS.Lib.Runs

/-!
# Serving interrupts

pic.c on two interrupt controllers.  A controller latches requests, offers the first one that is not
masked and comes before all that are in service, and takes the first one out of service at an end of
interrupt.  The second controller is at line 2 of the first.
-/

namespace YohdaOS.Irq

open Runs Priority

def PRI_PIC_CMD : BitVec 16 := 0x20

def SEC_PIC_CMD : BitVec 16 := 0xA0

def PIC_EOI : BitVec 8 := 0x20

def PRI_PIC_REMAP : BitVec 8 := 0x20

def SEC_PIC_REMAP : BitVec 8 := 0x28

def ICW1_ICW4 : BitVec 8 := 0x01

def ICW1_INIT : BitVec 8 := 0x10

def ICW4_8086 : BitVec 8 := 0x01

/-- The line of the first controller that the second one is at. -/
def CASCADE : Fin 8 := 2

/-- The initialization word that is next on the data port. -/
inductive Phase where
  | vector
  | cascade
  | mode
  | ready
deriving DecidableEq, Repr

/-- A controller: masks, requests, what is in service, the first vector, and where an initialization
stands. -/
structure Chip where
  imr : BitVec 8
  irr : Finset (Fin 8)
  isr : Finset (Fin 8)
  base : BitVec 8
  phase : Phase
  single : Bool
  icw4 : Bool

namespace Chip

variable (c : Chip)

/-- A write to the command port: the start of an initialization, or an end of interrupt.  The other
commands change no register that is read here. -/
def command (v : BitVec 8) : Chip :=
  if v.getLsbD 4 then
    { c with
      imr := 0
      irr := ∅
      isr := ∅
      phase := .vector
      single := v.getLsbD 1
      icw4 := v.getLsbD 0 }
  else if v = PIC_EOI then { c with isr := endFirst c.isr }
  else c

/-- What follows the words that say where the controller is. -/
def afterCascade : Phase := if c.icw4 then .mode else .ready

/-- A write to the data port: the next initialization word, or the mask. -/
def data (v : BitVec 8) : Chip :=
  match c.phase with
  | .vector => { c with
      base := v &&& 0xF8
      phase := if c.single then c.afterCascade else .cascade }
  | .cascade => { c with phase := c.afterCascade }
  | .mode => { c with phase := .ready }
  | .ready => { c with imr := v }

/-- The requests that are not masked. -/
def pending : Finset (Fin 8) := c.irr.filter fun k => ¬c.imr.getLsbD k

/-- The processor would get the line. -/
def Offers (k : Fin 8) : Prop :=
  k ∈ c.pending ∧ (∀ j ∈ c.pending, k ≤ j) ∧ ∀ j ∈ c.isr, k < j

instance (k : Fin 8) : Decidable (c.Offers k) := inferInstanceAs (Decidable (_ ∧ _ ∧ _))

def request (k : Fin 8) : Chip := { c with irr := insert k c.irr }

/-- The processor takes the line. -/
def serve (k : Fin 8) : Chip := { c with irr := c.irr.erase k, isr := insert k c.isr }

/-- Where the processor finds the handler. -/
def vector (k : Fin 8) : BitVec 8 := c.base ||| BitVec.ofNat 8 k

end Chip

structure Controllers where
  pri : Chip
  sec : Chip

namespace Controllers

variable (c : Controllers)

def masks : Pic := ⟨c.pri.imr, c.sec.imr⟩

def outb (addr : BitVec 16) (val : BitVec 8) : Controllers :=
  if addr = PRI_PIC_CMD then { c with pri := c.pri.command val }
  else if addr = SEC_PIC_CMD then { c with sec := c.sec.command val }
  else if addr = PRI_PIC_DATA then { c with pri := c.pri.data val }
  else if addr = SEC_PIC_DATA then { c with sec := c.sec.data val }
  else c

/-- `pic_set_mask`, which computes the two bytes from those it reads. -/
def picSetMask (mask : BitVec 16) (flag : BitVec 8) : Controllers :=
  let m := c.masks.picSetMask mask flag
  (c.outb PRI_PIC_DATA m.pri).outb SEC_PIC_DATA m.sec

def picEoi (irq : BitVec 8) : Controllers :=
  let c := if 7 < irq.toNat then c.outb SEC_PIC_CMD PIC_EOI else c
  c.outb PRI_PIC_CMD PIC_EOI

/-- `pic_init`; `io_wait` does nothing. -/
def picInit : Controllers :=
  let a1 := c.masks.inb PRI_PIC_DATA
  let a2 := c.masks.inb SEC_PIC_DATA
  let c := c.outb PRI_PIC_CMD (ICW1_INIT ||| ICW1_ICW4)
  let c := c.outb SEC_PIC_CMD (ICW1_INIT ||| ICW1_ICW4)
  let c := c.outb PRI_PIC_DATA PRI_PIC_REMAP
  let c := c.outb SEC_PIC_DATA SEC_PIC_REMAP
  let c := c.outb PRI_PIC_DATA 4
  let c := c.outb SEC_PIC_DATA 2
  let c := c.outb PRI_PIC_DATA ICW4_8086
  let c := c.outb SEC_PIC_DATA ICW4_8086
  let c := c.outb PRI_PIC_DATA a1
  c.outb SEC_PIC_DATA a2

/-- The first controller with the request of the second one. -/
def cascaded : Chip := if ∃ k, c.sec.Offers k then c.pri.request CASCADE else c.pri

end Controllers

/-- The lines of both controllers, the second one's from 8 on. -/
abbrev Line := Fin 16

def Line.ofPri (k : Fin 8) : Line := ⟨k, by omega⟩

def Line.ofSec (k : Fin 8) : Line := ⟨k + 8, by omega⟩

/-- The line of the first controller through which the line comes. -/
def Line.pri (l : Line) : Fin 8 := if h : l.val < 8 then ⟨l, h⟩ else CASCADE

/-- The controllers, and the lines with their vectors whose handlers have not ended their interrupt,
the innermost one first. -/
structure Service where
  pics : Controllers
  serving : List (Line × BitVec 8)

inductive Service.Event where
  | request
  | mask
  | accept (l : Line) (vector : BitVec 8)
  | eoi (l : Line) (vector : BitVec 8)

/-- The handler that runs is the innermost one; it passes its vector to `pic_eoi`. -/
inductive Service.Step (s : Service) : Service.Event → Service → Prop
  | requestPri (k : Fin 8) (hk : k ≠ CASCADE) :
      Step s .request { s with pics := { s.pics with pri := s.pics.pri.request k } }
  | requestSec (k : Fin 8) :
      Step s .request { s with pics := { s.pics with sec := s.pics.sec.request k } }
  | mask (mask : BitVec 16) (flag : BitVec 8) :
      Step s .mask { s with pics := s.pics.picSetMask mask flag }
  | acceptPri (k : Fin 8) (hk : k ≠ CASCADE) (h : s.pics.cascaded.Offers k) :
      Step s (.accept (.ofPri k) (s.pics.pri.vector k))
        ⟨{ s.pics with pri := s.pics.pri.serve k }, (.ofPri k, s.pics.pri.vector k) :: s.serving⟩
  | acceptSec (k : Fin 8) (h : s.pics.cascaded.Offers CASCADE) (hk : s.pics.sec.Offers k) :
      Step s (.accept (.ofSec k) (s.pics.sec.vector k))
        ⟨⟨s.pics.pri.serve CASCADE, s.pics.sec.serve k⟩,
          (.ofSec k, s.pics.sec.vector k) :: s.serving⟩
  | eoi (l : Line) (v : BitVec 8) (rest : List (Line × BitVec 8)) (h : s.serving = (l, v) :: rest) :
      Step s (.eoi l v) ⟨s.pics.picEoi v, rest⟩

section

variable {s : Service} {v : BitVec 8}

theorem Service.Step.acceptPri_of (k : Fin 8) (hk : k ≠ CASCADE) (h : s.pics.cascaded.Offers k)
    (hv : s.pics.pri.vector k = v) : Service.Step s (.accept (.ofPri k) v)
      ⟨{ s.pics with pri := s.pics.pri.serve k }, (.ofPri k, v) :: s.serving⟩ :=
  hv ▸ .acceptPri k hk h

theorem Service.Step.acceptSec_of (k : Fin 8) (h : s.pics.cascaded.Offers CASCADE)
    (hk : s.pics.sec.Offers k) (hv : s.pics.sec.vector k = v) :
    Service.Step s (.accept (.ofSec k) v)
      ⟨⟨s.pics.pri.serve CASCADE, s.pics.sec.serve k⟩, (.ofSec k, v) :: s.serving⟩ :=
  hv ▸ .acceptSec k h hk

end

/-! ## The functions -/

namespace Controllers

variable (c : Controllers)

/-- After `pic_init` the vectors start at 0x20 and 0x28, nothing is requested or in service, and the
masks are as they were. -/
theorem picInit_eq : c.picInit =
    ⟨⟨c.pri.imr, ∅, ∅, PRI_PIC_REMAP, .ready, false, true⟩,
      ⟨c.sec.imr, ∅, ∅, SEC_PIC_REMAP, .ready, false, true⟩⟩ := rfl

/-- The end of an interrupt that came with a vector is sent to both controllers. -/
theorem picEoi_eq {irq : BitVec 8} (h : 7 < irq.toNat) : c.picEoi irq =
    ⟨{ c.pri with isr := endFirst c.pri.isr }, { c.sec with isr := endFirst c.sec.isr }⟩ := by
  rw [picEoi, if_pos h]
  rfl

theorem picSetMask_eq (mask : BitVec 16) (flag : BitVec 8) (hpri : c.pri.phase = .ready)
    (hsec : c.sec.phase = .ready) : c.picSetMask mask flag =
      ⟨{ c.pri with imr := (c.masks.picSetMask mask flag).pri },
        { c.sec with imr := (c.masks.picSetMask mask flag).sec }⟩ := by
  have hdata (d : Chip) (v : BitVec 8) (hd : d.phase = .ready) :
      d.data v = { d with imr := v } := by
    rw [Chip.data, hd]
  have h₁ := hdata c.pri (c.masks.picSetMask mask flag).pri hpri
  have h₂ := hdata c.sec (c.masks.picSetMask mask flag).sec hsec
  rw [← h₁, ← h₂]
  rfl

theorem cascaded_isr : c.cascaded.isr = c.pri.isr := by
  unfold cascaded
  split_ifs <;> rfl

theorem cascaded_imr : c.cascaded.imr = c.pri.imr := by
  unfold cascaded
  split_ifs <;> rfl

end Controllers

/-! ## Lines -/

@[simp] theorem Line.ofPri_pri (k : Fin 8) : (Line.ofPri k).pri = k := by
  rw [Line.pri, Line.ofPri, dif_pos k.isLt]

@[simp] theorem Line.ofSec_pri (k : Fin 8) : (Line.ofSec k).pri = CASCADE := by
  rw [Line.pri, dif_neg (by simp [Line.ofSec])]

theorem Line.ofSec_injective : Function.Injective Line.ofSec := by
  intro j k h
  have hval := congrArg Fin.val h
  simp only [Line.ofSec] at hval
  exact Fin.ext (by omega)

/-- The vector of a line. -/
def Line.vector (l : Line) : BitVec 8 := 0x20 + BitVec.ofNat 8 l

theorem Line.seven_lt_vector (l : Line) : 7 < l.vector.toNat := by
  revert l
  decide

theorem Line.vector_ofPri (k : Fin 8) :
    PRI_PIC_REMAP ||| BitVec.ofNat 8 k = (Line.ofPri k).vector := by
  revert k
  decide

theorem Line.vector_ofSec (k : Fin 8) :
    SEC_PIC_REMAP ||| BitVec.ofNat 8 k = (Line.ofSec k).vector := by
  revert k
  decide

/-! ## What every step keeps -/

namespace Service

/-- The lines of the first controller that are being served, the innermost one first. -/
def lines (s : Service) : List (Fin 8) := s.serving.map fun e => e.1.pri

structure Inv (s : Service) : Prop where
  priReady : s.pics.pri.phase = .ready
  secReady : s.pics.sec.phase = .ready
  priBase : s.pics.pri.base = PRI_PIC_REMAP
  secBase : s.pics.sec.base = SEC_PIC_REMAP
  cascade : CASCADE ∉ s.pics.pri.irr
  nested : s.lines.Pairwise (· < ·)
  pri : s.pics.pri.isr = s.lines.toFinset
  sec : ∀ k ∈ s.pics.sec.isr, Line.ofSec k ∈ s.serving.map Prod.fst
  vector : ∀ e ∈ s.serving, e.2 = e.1.vector

variable {s s' : Service} {e : Event} {tr : List Event} {k : Fin 8}

theorem inv_init (c : Controllers) : Inv ⟨c.picInit, []⟩ where
  priReady := rfl
  secReady := rfl
  priBase := rfl
  secBase := rfl
  cascade := Finset.notMem_empty _
  nested := List.Pairwise.nil
  pri := rfl
  sec k hk := absurd hk (Finset.notMem_empty k)
  vector _ he := absurd he List.not_mem_nil

namespace Inv

theorem requestPri (h : s.Inv) (hk : k ≠ CASCADE) :
    Inv { s with pics := { s.pics with pri := s.pics.pri.request k } } := by
  refine ⟨h.priReady, h.secReady, h.priBase, h.secBase, ?_, h.nested, h.pri, h.sec, h.vector⟩
  simp only [Chip.request, Finset.mem_insert, not_or]
  exact ⟨hk.symm, h.cascade⟩

theorem requestSec (h : s.Inv) (k : Fin 8) :
    Inv { s with pics := { s.pics with sec := s.pics.sec.request k } } :=
  ⟨h.priReady, h.secReady, h.priBase, h.secBase, h.cascade, h.nested, h.pri, h.sec, h.vector⟩

theorem mask (h : s.Inv) (mask : BitVec 16) (flag : BitVec 8) :
    Inv { s with pics := s.pics.picSetMask mask flag } := by
  rw [Controllers.picSetMask_eq _ _ _ h.priReady h.secReady]
  exact ⟨h.priReady, h.secReady, h.priBase, h.secBase, h.cascade, h.nested, h.pri, h.sec, h.vector⟩

/-- A line that is offered comes before those that are served. -/
theorem lt (h : s.Inv) (hk : s.pics.cascaded.Offers k) : ∀ j ∈ s.lines, k < j := by
  intro j hj
  apply hk.2.2
  rw [Controllers.cascaded_isr, h.pri]
  exact List.mem_toFinset.2 hj

theorem acceptPri (h : s.Inv) (hk : s.pics.cascaded.Offers k) :
    Inv ⟨{ s.pics with pri := s.pics.pri.serve k },
      (.ofPri k, s.pics.pri.vector k) :: s.serving⟩ where
  priReady := h.priReady
  secReady := h.secReady
  priBase := h.priBase
  secBase := h.secBase
  cascade hmem := h.cascade (Finset.mem_of_mem_erase hmem)
  nested := by
    simp only [lines, List.map_cons, Line.ofPri_pri]
    exact List.pairwise_cons.2 ⟨h.lt hk, h.nested⟩
  pri := by
    simp only [lines, List.map_cons, Line.ofPri_pri, List.toFinset_cons, Chip.serve, h.pri]
  sec j hj := List.mem_cons_of_mem _ (h.sec j hj)
  vector e he := by
    rcases List.mem_cons.1 he with rfl | he
    · exact (congrArg (· ||| BitVec.ofNat 8 k) h.priBase).trans (Line.vector_ofPri k)
    · exact h.vector e he

theorem acceptSec (h : s.Inv) (hcascade : s.pics.cascaded.Offers CASCADE) (k : Fin 8) :
    Inv ⟨⟨s.pics.pri.serve CASCADE, s.pics.sec.serve k⟩,
      (.ofSec k, s.pics.sec.vector k) :: s.serving⟩ where
  priReady := h.priReady
  secReady := h.secReady
  priBase := h.priBase
  secBase := h.secBase
  cascade hmem := h.cascade (Finset.mem_of_mem_erase hmem)
  nested := by
    simp only [lines, List.map_cons, Line.ofSec_pri]
    exact List.pairwise_cons.2 ⟨h.lt hcascade, h.nested⟩
  pri := by
    simp only [lines, List.map_cons, Line.ofSec_pri, List.toFinset_cons, Chip.serve, h.pri]
  sec j hj := by
    rcases Finset.mem_insert.1 hj with rfl | hj
    · exact List.mem_cons_self
    · exact List.mem_cons_of_mem _ (h.sec j hj)
  vector e he := by
    rcases List.mem_cons.1 he with rfl | he
    · exact (congrArg (· ||| BitVec.ofNat 8 k) h.secBase).trans (Line.vector_ofSec k)
    · exact h.vector e he

/-- The second controller takes a line out of service too, but none that is still served. -/
theorem sec_eoi (h : s.Inv) {l : Line} {v : BitVec 8} {rest : List (Line × BitVec 8)}
    (hserving : s.serving = (l, v) :: rest) :
    ∀ k ∈ endFirst s.pics.sec.isr, Line.ofSec k ∈ rest.map Prod.fst := by
  have hsec := h.sec
  have hnested := h.nested
  simp only [hserving, List.map_cons] at hsec
  simp only [lines, hserving, List.map_cons] at hnested
  intro k hk
  by_cases hl : ∃ j, Line.ofSec j = l
  · obtain ⟨j, rfl⟩ := hl
    -- no other line of the second controller is served with this one
    have hone : s.pics.sec.isr ⊆ {j} := by
      intro i hi
      rcases List.mem_cons.1 (hsec i hi) with heq | hrest
      · exact Finset.mem_singleton.2 (Line.ofSec_injective heq)
      · obtain ⟨e, he, hei⟩ := List.mem_map.1 hrest
        have hlt := (List.pairwise_cons.1 hnested).1 _ (List.mem_map_of_mem he)
        rw [hei, Line.ofSec_pri, Line.ofSec_pri] at hlt
        exact absurd hlt (lt_irrefl _)
    rw [endFirst_of_subset_singleton hone] at hk
    exact absurd hk (Finset.notMem_empty k)
  · rcases List.mem_cons.1 (hsec k (endFirst_subset _ hk)) with heq | hrest
    · exact absurd ⟨k, heq⟩ hl
    · exact hrest

theorem eoi (h : s.Inv) {l : Line} {v : BitVec 8} {rest : List (Line × BitVec 8)}
    (hserving : s.serving = (l, v) :: rest) : Inv ⟨s.pics.picEoi v, rest⟩ := by
  have hv : v = l.vector := h.vector (l, v) (hserving ▸ List.mem_cons_self)
  have hnested := h.nested
  have hpri := h.pri
  simp only [lines, hserving, List.map_cons] at hnested hpri
  rw [hv, Controllers.picEoi_eq _ l.seven_lt_vector]
  refine ⟨h.priReady, h.secReady, h.priBase, h.secBase, h.cascade, hnested.of_cons, ?_,
    h.sec_eoi hserving, fun e he => h.vector e (hserving ▸ List.mem_cons_of_mem _ he)⟩
  rw [hpri]
  exact endFirst_toFinset hnested

theorem step (h : s.Inv) (hstep : Step s e s') : s'.Inv := by
  cases hstep with
  | requestPri k hk => exact h.requestPri hk
  | requestSec k => exact h.requestSec k
  | mask m flag => exact h.mask m flag
  | acceptPri k hk hoffers => exact h.acceptPri hoffers
  | acceptSec k hcascade hk => exact h.acceptSec hcascade k
  | eoi l v rest hserving => exact h.eoi hserving

theorem trace (h : s.Inv) (htr : Trace Step s tr s') : s'.Inv :=
  invariant_of_trace htr h (fun _ _ => trivial) fun _ _ _ hx _ hstep => hx.step hstep

end Inv

/-! ## Nothing stays blocked -/

/-- The line is requested, no mask is in its way, and it comes before all that are served. -/
structure Wants (s : Service) (l : Line) : Prop where
  first : ∀ j ∈ s.lines, l.pri < j
  waits : (∃ k, l = .ofPri k ∧ k ∈ s.pics.pri.pending) ∨
    ∃ k, l = .ofSec k ∧ k ∈ s.pics.sec.pending ∧ ¬s.pics.pri.imr.getLsbD CASCADE

theorem exists_offers {c : Chip} (hk : k ∈ c.pending) (hfirst : ∀ j ∈ c.isr, k < j) :
    ∃ m ≤ k, c.Offers m := by
  have hne : c.pending.Nonempty := ⟨k, hk⟩
  have hle := Finset.min'_le _ k hk
  refine ⟨c.pending.min' hne, hle, Finset.min'_mem _ hne, Finset.min'_le _, fun j hj => ?_⟩
  exact hle.trans_lt (hfirst j hj)

/-- The request reaches the first controller. -/
theorem Wants.cascaded (h : s.Inv) {l : Line} (hl : s.Wants l) :
    l.pri ∈ s.pics.cascaded.pending := by
  rw [Chip.pending, Finset.mem_filter, Controllers.cascaded_imr]
  rcases hl.waits with ⟨k, rfl, hk⟩ | ⟨k, rfl, hk, hmask⟩
  · rw [Chip.pending, Finset.mem_filter] at hk
    rw [Line.ofPri_pri]
    refine ⟨?_, hk.2⟩
    unfold Controllers.cascaded
    split_ifs
    · exact Finset.mem_insert_of_mem hk.1
    · exact hk.1
  · have hidle : ∀ j ∈ s.pics.sec.isr, k < j := by
      intro j hj
      obtain ⟨e, he, hej⟩ := List.mem_map.1 (h.sec j hj)
      have hlt := hl.first _ (List.mem_map_of_mem he)
      rw [hej, Line.ofSec_pri, Line.ofSec_pri] at hlt
      exact absurd hlt (lt_irrefl _)
    obtain ⟨m, -, hm⟩ := exists_offers hk hidle
    rw [Line.ofSec_pri, Controllers.cascaded, if_pos ⟨m, hm⟩]
    exact ⟨Finset.mem_insert_self _ _, hmask⟩

/-- The processor can take a line that comes at least as early as one that waits. -/
theorem exists_accept (h : s.Inv) {l : Line} (hl : s.Wants l) :
    ∃ l' v t, Step s (.accept l' v) t ∧ l'.pri ≤ l.pri := by
  have hfirst : ∀ j ∈ s.pics.cascaded.isr, l.pri < j := by
    rw [Controllers.cascaded_isr, h.pri]
    exact fun j hj => hl.first j (List.mem_toFinset.1 hj)
  obtain ⟨m, hle, hm⟩ := exists_offers (hl.cascaded h) hfirst
  by_cases hcascade : m = CASCADE
  · subst hcascade
    have hsec : ∃ k, s.pics.sec.Offers k := by
      by_contra hno
      have hmem := hm.1
      rw [Controllers.cascaded, if_neg hno, Chip.pending, Finset.mem_filter] at hmem
      exact h.cascade hmem.1
    obtain ⟨k, hk⟩ := hsec
    exact ⟨_, _, _, .acceptSec k hm hk, by rwa [Line.ofSec_pri]⟩
  · exact ⟨_, _, _, .acceptPri m hcascade hm, by rwa [Line.ofPri_pri]⟩

/-- Whatever state `pic_init` finds the controllers in, it keeps the masks, and in every run of
requests, interrupts nested in one another and calls of `pic_set_mask` and of `pic_eoi` after it:
interrupts come with the vectors from 0x20 on, the first controller has in service what is being
served, the second one nothing else, and where an unmasked line waits that comes before all that are
served, it or one before it can be taken. -/
theorem pic_serves (c : Controllers) : c.picInit.masks = c.masks ∧
    ∀ tr s, Trace Step ⟨c.picInit, []⟩ tr s →
      (∀ e ∈ s.serving, e.2 = e.1.vector) ∧ s.pics.pri.isr = s.lines.toFinset ∧
      (∀ k ∈ s.pics.sec.isr, .ofSec k ∈ s.serving.map Prod.fst) ∧
      ∀ l, s.Wants l → ∃ l' v t, Step s (.accept l' v) t ∧ l'.pri ≤ l.pri := by
  refine ⟨by rw [Controllers.picInit_eq]; rfl, fun tr s htr => ?_⟩
  have h := (inv_init c).trace htr
  exact ⟨h.vector, h.pri, h.sec, fun l hl => exists_accept h hl⟩

/-- A controller without masks. -/
def openChip : Chip := ⟨0, ∅, ∅, 8, .ready, false, true⟩

/-- The timer interrupts the handler of line 8, and its end of interrupt goes to both controllers. -/
theorem pic_serves_nested : ∃ s, Trace Step ⟨Controllers.picInit ⟨openChip, openChip⟩, []⟩
    [.request, .accept (.ofSec 0) 0x28, .request, .accept (.ofPri 0) 0x20, .eoi (.ofPri 0) 0x20] s ∧
    s.lines = [CASCADE] ∧ s.pics.sec.isr = ∅ ∧ s.pics.pri.isr = s.lines.toFinset := by
  let c : Controllers := Controllers.picInit ⟨openChip, openChip⟩
  let c₁ : Controllers := { c with sec := c.sec.request 0 }
  let c₂ : Controllers := ⟨c₁.pri.serve CASCADE, c₁.sec.serve 0⟩
  let c₃ : Controllers := { c₂ with pri := c₂.pri.request 0 }
  let c₄ : Controllers := { c₃ with pri := c₃.pri.serve 0 }
  have h₁ : Step ⟨c, []⟩ .request ⟨c₁, []⟩ := .requestSec 0
  have h₂ : Step ⟨c₁, []⟩ (.accept (.ofSec 0) 0x28) ⟨c₂, [(.ofSec 0, 0x28)]⟩ :=
    Step.acceptSec_of (s := ⟨c₁, []⟩) 0 (by decide) (by decide) (by decide)
  have h₃ : Step ⟨c₂, [(.ofSec 0, 0x28)]⟩ .request ⟨c₃, [(.ofSec 0, 0x28)]⟩ :=
    .requestPri 0 (by decide)
  have h₄ : Step ⟨c₃, [(.ofSec 0, 0x28)]⟩ (.accept (.ofPri 0) 0x20)
      ⟨c₄, [(.ofPri 0, 0x20), (.ofSec 0, 0x28)]⟩ :=
    Step.acceptPri_of (s := ⟨c₃, [(.ofSec 0, 0x28)]⟩) 0 (by decide) (by decide) (by decide)
  have h₅ : Step ⟨c₄, [(.ofPri 0, 0x20), (.ofSec 0, 0x28)]⟩ (.eoi (.ofPri 0) 0x20)
      ⟨c₄.picEoi 0x20, [(.ofSec 0, 0x28)]⟩ := .eoi _ _ _ rfl
  have htr := Trace.cons h₁ (.cons h₂ (.cons h₃ (.cons h₄ (.cons h₅ (.nil _)))))
  exact ⟨_, htr, by decide, by decide, ((pic_serves ⟨openChip, openChip⟩).2 _ _ htr).2.1⟩

end Service

end YohdaOS.Irq
