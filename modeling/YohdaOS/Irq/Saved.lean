import YohdaOS.Irq.Stubs
import YohdaOS.Lib.Words

/-!
# What a stub has on the stack

`Stacked` says which words lie between the stack pointer and the one of the interrupted code, and that
the memory of that code is untouched.  Each instruction of a stub pushes or takes words, and an
interrupt that is delivered in between keeps them.
-/

namespace YohdaOS.P32.Isr

open ByteMem Switch Relation

variable {A : Area} {s₀ s t u s' : Machine} {ws : List Word} {w v : Word} {r : Reg}

structure Stacked (A : Area) (s₀ s : Machine) (ws : List Word) : Prop where
  esp : s.esp.toNat + 4 * ws.length = s₀.esp.toNat
  words : WordsAt s.mem s.esp.toNat ws
  low : A.lo ≤ s.esp.toNat
  mem : ∀ x, ¬A.data x → x < A.lo ∨ s₀.esp.toNat ≤ x → s.mem.byte x = s₀.mem.byte x
  seg : s.seg = s₀.seg

/-! ## The machine -/

namespace Machine

@[simp] theorem push_mem (s : Machine) (v : Word) :
    (s.push v).mem = storeWord s.mem (s.esp - 4) v := rfl
@[simp] theorem push_esp (s : Machine) (v : Word) : (s.push v).esp = s.esp - 4 := rfl
@[simp] theorem push_seg (s : Machine) (v : Word) : (s.push v).seg = s.seg := rfl

theorem push_reg (s : Machine) (v : Word) (hr : r ≠ .esp) : (s.push v).reg r = s.reg r :=
  Function.update_of_ne hr _ _

theorem pushes_reg (s : Machine) (vs : List Word) (hr : r ≠ .esp) :
    (vs.foldl push s).reg r = s.reg r := by
  induction vs generalizing s with
  | nil => rfl
  | cons v vs ih => rw [List.foldl_cons, ih, push_reg s v hr]

@[simp] theorem set_mem (s : Machine) (r : Reg) (v : Word) : (s.set r v).mem = s.mem := rfl
@[simp] theorem set_seg (s : Machine) (r : Reg) (v : Word) : (s.set r v).seg = s.seg := rfl

theorem set_self (s : Machine) (r : Reg) (v : Word) : (s.set r v).reg r = v :=
  Function.update_self _ _ _

theorem set_of_ne (s : Machine) {r q : Reg} (v : Word) (hne : q ≠ r) :
    (s.set r v).reg q = s.reg q := Function.update_of_ne hne _ _

theorem set_esp (s : Machine) (v : Word) (hr : r ≠ .esp) : (s.set r v).esp = s.esp :=
  set_of_ne s v hr.symm

@[simp] theorem drop_mem (s : Machine) (n : Word) : (s.drop n).mem = s.mem := rfl
@[simp] theorem drop_seg (s : Machine) (n : Word) : (s.drop n).seg = s.seg := rfl
@[simp] theorem drop_esp (s : Machine) (n : Word) : (s.drop n).esp = s.esp + n :=
  set_self s .esp _

theorem drop_reg (s : Machine) (n : Word) (hr : r ≠ .esp) : (s.drop n).reg r = s.reg r :=
  set_of_ne s _ hr

theorem popReg_self (s : Machine) (r : Reg) : (s.popReg r).reg r = s.top := set_self _ r _

theorem popReg_of_ne (s : Machine) {r q : Reg} (hq : q ≠ r) (hesp : q ≠ .esp) :
    (s.popReg r).reg q = s.reg q := by
  rw [popReg, set_of_ne _ _ hq, drop_reg _ _ hesp]

end Machine

theorem toNat_sub_four {a : Word} (h : 4 ≤ a.toNat) : (a - 4).toNat = a.toNat - 4 := by
  bv_omega

/-! ## Interrupts in between -/

theorem Kept.refl (A : Area) (s : Machine) : Kept A s s :=
  ⟨rfl, rfl, rfl, rfl, rfl, fun _ _ _ => rfl⟩

theorem Kept.esp (h : Kept A s t) : t.esp = s.esp := congrFun h.reg .esp

theorem Kept.trans (h : Kept A s t) (h' : Kept A t u) : Kept A s u where
  reg := h'.reg.trans h.reg
  eip := h'.eip.trans h.eip
  eflags := h'.eflags.trans h.eflags
  cs := h'.cs.trans h.cs
  seg := h'.seg.trans h.seg
  mem := fun x hx hout => (h'.mem x hx (by rwa [h.esp])).trans (h.mem x hx hout)

namespace Stacked

/-- The words are untouched by what leaves the stack alone. -/
theorem of_eq (h : Stacked A s₀ s ws) (hesp : t.esp = s.esp) (hmem : t.mem = s.mem)
    (hseg : t.seg = s.seg) : Stacked A s₀ t ws where
  esp := by rw [hesp, h.esp]
  words := by rw [hmem, hesp]; exact h.words
  low := by rw [hesp]; exact h.low
  mem := by rw [hmem]; exact h.mem
  seg := hseg.trans h.seg

theorem kept (h : Stacked A s₀ s ws) (htop : s₀.esp.toNat ≤ A.hi) (hkept : Kept A s t) :
    Stacked A s₀ t ws where
  esp := by rw [hkept.esp, h.esp]
  words := by
    rw [hkept.esp]
    have hesp := h.esp
    have hlow := h.low
    refine h.words.congr fun x hx hx' => hkept.mem x (fun hdata => ?_) (Or.inr hx)
    have hapart := A.apart x hdata
    omega
  low := by rw [hkept.esp]; exact h.low
  mem := fun x hx hout => by
    have hesp := h.esp
    rw [hkept.mem x hx (by omega), h.mem x hx hout]
  seg := hkept.seg.trans h.seg

theorem push (h : Stacked A s₀ s ws) (hroom : A.lo + 4 ≤ s.esp.toNat) (v : Word) :
    Stacked A s₀ (s.push v) (v :: ws) := by
  have hsub := toNat_sub_four (a := s.esp) (by omega)
  have hesp := h.esp
  refine ⟨?_, ?_, ?_, fun x hx hout => ?_, h.seg⟩
  · rw [Machine.push_esp, hsub, List.length_cons]
    omega
  · rw [Machine.push_esp, Machine.push_mem, storeWord, hsub]
    exact h.words.push (by omega) v
  · rw [Machine.push_esp, hsub]
    omega
  · rw [Machine.push_mem, storeWord, hsub, frame_store32 _ _ _ x (by omega), h.mem x hx hout]

theorem pushes (h : Stacked A s₀ s ws) (vs : List Word)
    (hroom : A.lo + 4 * vs.length ≤ s.esp.toNat) :
    Stacked A s₀ (vs.foldl Machine.push s) (vs.reverse ++ ws) := by
  induction vs generalizing s ws with
  | nil => exact h
  | cons v vs ih =>
    rw [List.length_cons] at hroom
    have hsub := toNat_sub_four (a := s.esp) (by omega)
    have hrest := ih (h.push (by omega) v) (by rw [Machine.push_esp, hsub]; omega)
    rw [List.reverse_cons, List.append_assoc, List.singleton_append]
    exact hrest

theorem top (h : Stacked A s₀ s (w :: ws)) : s.top = w := loadWord_of_toNat h.words.head

theorem drops (us : List Word) {n : Word} (h : Stacked A s₀ s (us ++ ws))
    (hn : n.toNat = 4 * us.length) : Stacked A s₀ (s.drop n) ws := by
  have hesp := h.esp
  have hlow := h.low
  have hlt := s₀.esp.isLt
  rw [List.length_append] at hesp
  have hadd : (s.esp + n).toNat = s.esp.toNat + 4 * us.length := by
    rw [BitVec.toNat_add, hn]
    exact Nat.mod_eq_of_lt (by omega)
  refine ⟨?_, ?_, ?_, h.mem, h.seg⟩
  · rw [Machine.drop_esp, hadd]
    omega
  · rw [Machine.drop_esp, Machine.drop_mem, hadd]
    exact h.words.drop
  · rw [Machine.drop_esp, hadd]
    omega

theorem popReg (h : Stacked A s₀ s (w :: ws)) (hr : r ≠ .esp) :
    Stacked A s₀ (s.popReg r) ws ∧ (s.popReg r).reg r = w := by
  have hdrop : Stacked A s₀ (s.drop 4) ws := h.drops [w] rfl
  exact ⟨hdrop.of_eq (Machine.set_esp _ _ hr) rfl rfl, (Machine.popReg_self s r).trans h.top⟩

/-- A function has returned to its return address; its arguments are its own. -/
theorem returned {back : Word} {us : List Word} (h : Stacked A s₀ s (back :: (us ++ ws)))
    (htop : s₀.esp.toNat ≤ A.hi) (hesp : t.esp = s.esp) (hseg : t.seg = s.seg)
    (hmem : ∀ x, ¬A.data x → x < A.lo ∨ s.esp.toNat + 4 + 4 * us.length ≤ x →
      t.mem.byte x = s.mem.byte x) :
    ∃ us', us'.length = us.length ∧ Stacked A s₀ t.leave (us' ++ ws) := by
  have hsub := h.esp
  have hlow := h.low
  rw [List.length_cons, List.length_append] at hsub
  obtain ⟨us', hlength, hus⟩ := WordsAt.exists_words t.mem (s.esp.toNat + 4) us.length
  have hws : WordsAt t.mem (s.esp.toNat + 4 + 4 * us'.length) ws := by
    rw [hlength]
    refine h.words.tail.drop.congr fun x hx hx' => hmem x (fun hdata => ?_) (by omega)
    have hapart := A.apart x hdata
    omega
  have hstack : Stacked A s₀ t ([t.top] ++ (us' ++ ws)) := by
    refine ⟨?_, ⟨?_, ?_⟩, ?_, fun x hx hout => ?_, hseg.trans h.seg⟩
    · rw [hesp, List.singleton_append, List.length_cons, List.length_append, hlength]
      omega
    · rw [Machine.top, loadWord, BitVec.toNat_ofNat, Nat.mod_eq_of_lt (load32_lt t.mem _)]
    · rw [hesp]
      exact hus.append hws
    · rw [hesp]
      exact hlow
    · rw [hmem x hx (by omega), h.mem x hx hout]
  exact ⟨us', hlength, (hstack.drops [t.top] rfl).of_eq rfl rfl rfl⟩

/-- What `pushad` leaves on the stack. -/
def saved (f : Reg → Word) : List Word := [.edi, .esi, .ebp, .esp, .ebx, .edx, .ecx, .eax].map f

theorem pushAll (h : Stacked A s₀ s ws) (hroom : A.lo + 32 ≤ s.esp.toNat) :
    Stacked A s₀ s.pushAll (saved s.reg ++ ws) := by
  have hpushes := h.pushes ([.eax, .ecx, .edx, .ebx, .esp, .ebp, .esi, .edi].map s.reg) hroom
  have hsaved : saved s.reg =
    ([.eax, .ecx, .edx, .ebx, .esp, .ebp, .esi, .edi].map s.reg).reverse := rfl
  rw [hsaved, Machine.pushAll]
  exact hpushes

/-- `popad` takes the registers that `pushad` has saved. -/
theorem popAll {f : Reg → Word} (h : Stacked A s₀ s (saved f ++ ws)) :
    Stacked A s₀ s.popAll ws ∧ ∀ r ≠ .esp, s.popAll.reg r = f r := by
  obtain ⟨h₁, edi⟩ := h.popReg (r := .edi) (by decide)
  obtain ⟨h₂, esi⟩ := h₁.popReg (r := .esi) (by decide)
  obtain ⟨h₃, ebp⟩ := h₂.popReg (r := .ebp) (by decide)
  have h₄ := h₃.drops [f .esp] (n := 4) rfl
  obtain ⟨h₅, ebx⟩ := h₄.popReg (r := .ebx) (by decide)
  obtain ⟨h₆, edx⟩ := h₅.popReg (r := .edx) (by decide)
  obtain ⟨h₇, ecx⟩ := h₆.popReg (r := .ecx) (by decide)
  obtain ⟨h₈, eax⟩ := h₇.popReg (r := .eax) (by decide)
  refine ⟨h₈, fun r hr => ?_⟩
  -- each register is taken once, and the later instructions leave it alone
  have skip {t : Machine} {p : Reg} {v : Word} (ht : t.reg r = v) (hp : r ≠ p) :
      (t.popReg p).reg r = v := (Machine.popReg_of_ne t hp hr).trans ht
  have skipEsp {t : Machine} {v : Word} (ht : t.reg r = v) : (t.drop 4).reg r = v :=
    (Machine.drop_reg t 4 hr).trans ht
  rw [Machine.popAll]
  cases r with
  | eax => exact eax
  | ecx => exact skip ecx (by decide)
  | edx => exact skip (skip edx (by decide)) (by decide)
  | ebx => exact skip (skip (skip ebx (by decide)) (by decide)) (by decide)
  | esp => exact absurd rfl hr
  | ebp =>
    exact skip (skip (skip (skip (skipEsp ebp) (by decide)) (by decide)) (by decide)) (by decide)
  | esi =>
    exact skip (skip (skip (skip (skipEsp (skip esi (by decide))) (by decide)) (by decide))
      (by decide)) (by decide)
  | edi =>
    exact skip (skip (skip (skip (skipEsp (skip (skip edi (by decide)) (by decide))) (by decide))
      (by decide)) (by decide)) (by decide)

end Stacked

end YohdaOS.P32.Isr
