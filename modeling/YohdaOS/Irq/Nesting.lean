import YohdaOS.Irq.Saved

/-!
# Interrupts inside interrupts

The gates that `main` registers are trap gates, so an interrupt can be delivered at every instruction
of another one.  By induction on the depth each of them keeps what the code below it sees, and the
whole machine behaves like one in which nothing happens between two instructions but that the data of
the handlers and the free part of the stack change.
-/

namespace YohdaOS.P32.Isr

open ByteMem Switch Relation

/-! ## The table -/

section Table

variable {v : ℕ} {g : Gate}

theorem asked_append (xs ys : List Registration) (v : ℕ) (before : Gate) :
    asked (xs ++ ys) v before = asked ys v (asked xs v before) := by
  induction ys using List.reverseRecOn with
  | nil => rw [List.append_nil]; rfl
  | append_singleton ys r ih => rw [← List.append_assoc, asked_concat, asked_concat, ih]

/-- The loop of `interrupt_init`. -/
theorem asked_range (n : ℕ) (offset : BitVec 32) (attr : BitVec 8) (v : ℕ) (before : Gate) :
    asked ((List.range n).map fun i : ℕ => ⟨(i : ℤ), offset, attr⟩) v before =
      if v < n then ⟨offset, 0x08, attr⟩ else before := by
  induction n with
  | zero => rfl
  | succ n ih =>
    rw [List.range_succ, List.map_append, List.map_singleton, asked_concat, ih]
    dsimp only [Registration.gate]
    split_ifs <;> first | rfl | omega

/-- The label that the gate of a vector leads to. -/
def labelAt (v : ℕ) : Option Label :=
  if v = 0x21 then some .ps2KeyboardInterrupt
  else if v = 0x20 then some .systemTimerInterrupt
  else if v = 0x0E then some .pageFault
  else if v = 0x0D then some .generalProtectionFault
  else if v = 0x02 then some .nonMaskableInterrupt
  else if v = 0x00 then some .divisionError
  else if v < INT_VEC_MAX then some .commonHandler
  else none

theorem asked_registrations (K : Kernel) (v : ℕ) :
    asked K.registrations v ⟨0, 0, 0⟩ =
      (labelAt v).elim ⟨0, 0, 0⟩ fun l => ⟨K.addr l, 0x08, IDT_KERN_TRAP⟩ := by
  have hone (r : Registration) (before : Gate) :
      asked [r] v before = if r.vector = (v : ℤ) then r.gate else before := asked_concat [] r v before
  have hcons (r : Registration) (rs : List Registration) (before : Gate) :
      asked (r :: rs) v before = asked rs v (asked [r] v before) := asked_append [r] rs v before
  simp only [Kernel.registrations, Kernel.interruptInit, Kernel.pitInit, Kernel.keyboardInit,
    asked_append, hcons _ (_ :: _), hone, asked_range, Registration.gate, labelAt, INT_VEC_MAX]
  by_cases hv : v ∈ [0x21, 0x20, 0x0E, 0x0D, 0x02, 0x00]
  · fin_cases hv <;> rfl
  · simp only [List.mem_cons, List.not_mem_nil, or_false, not_or] at hv
    obtain ⟨h₁, h₂, h₃, h₄, h₅, h₆⟩ := hv
    rw [if_neg (by omega), if_neg (by omega), if_neg (by omega), if_neg (by omega),
      if_neg (by omega), if_neg (by omega), if_neg h₁, if_neg h₂, if_neg h₃, if_neg h₄, if_neg h₅,
      if_neg h₆]
    by_cases hcommon : v < 129
    · simp only [hcommon, if_true, Option.elim]
    · simp only [hcommon, if_false, Option.elim]

end Table

/-- The gates are as `main` registers them, and the stack pointer is not above the stack. -/
structure Ready (K : Kernel) (s : Machine) : Prop where
  esp : s.esp.toNat ≤ K.area.hi
  gates : ∀ v < IDT_MAX_ENTRYS, gateAt s.mem K.idtTbl v = asked K.registrations v ⟨0, 0, 0⟩

variable {K : Kernel} {s₀ s t u s' a b : Machine} {ws : List Word} {i : Instr} {is js : List Instr}
  {env : Machine → Machine → Prop} {h : Handler} {irq : Word} {g : Gate} {e : Event} {l : Label}

theorem Ready.of_mem (hs : Ready K s) (hesp : t.esp.toNat ≤ K.area.hi)
    (hmem : ∀ x, ¬K.area.data x → x < K.area.lo ∨ K.area.hi ≤ x → t.mem.byte x = s.mem.byte x) :
    Ready K t := by
  refine ⟨hesp, fun v hv => ?_⟩
  rw [← hs.gates v hv]
  refine gateAt_congr fun x hx hx' => ?_
  rw [IDT_MAX_ENTRYS] at hv
  obtain ⟨hdata, hout⟩ := K.idt_apart x (by omega) (by rw [sizeofEntry, IDT_MAX_ENTRYS]; omega)
  exact hmem x hdata hout

theorem Ready.kept (hs : Ready K s) (hkept : Kept K.area s t) : Ready K t :=
  hs.of_mem (by rw [hkept.esp]; exact hs.esp) fun x hx hout => hkept.mem x hx (by
    have hesp := hs.esp
    omega)

theorem Ready.stacked (hs : Ready K s₀) (hst : Stacked K.area s₀ s ws) : Ready K s := by
  have hesp := hs.esp
  have hsub := hst.esp
  exact hs.of_mem (by omega) fun x hx hout => hst.mem x hx (by omega)

/-- What is delivered in between keeps what the code sees. -/
def Sound (K : Kernel) (env : Machine → Machine → Prop) : Prop :=
  ∀ a b, Ready K a → env a b → Kept K.area a b

theorem Sound.run (hsound : Sound K env) (hs : Ready K s) (hrun : ReflTransGen env s t) :
    Kept K.area s t := by
  induction hrun with
  | refl => exact Kept.refl _ s
  | tail _ hstep ih => exact ih.trans (hsound _ _ (hs.kept ih) hstep)

/-! ## Runs of a stub -/

theorem runs_cons (hr : Runs K.area env h (i :: is) s s') :
    ∃ t u, ReflTransGen env s t ∧ Does K.area env h i t u ∧ Runs K.area env h is u s' := by
  cases hr with
  | cons henv hdo hrest => exact ⟨_, _, henv, hdo, hrest⟩

theorem runs_append (hr : Runs K.area env h (is ++ js) s s') :
    ∃ t, Runs K.area env h is s t ∧ Runs K.area env h js t s' := by
  induction is generalizing s with
  | nil => exact ⟨s, .nil s, hr⟩
  | cons i is ih =>
    obtain ⟨t, u, henv, hdo, hrest⟩ := runs_cons hr
    obtain ⟨v, hv, hjs⟩ := ih hrest
    exact ⟨v, .cons henv hdo hv, hjs⟩

theorem Does.eq (hdo : Does K.area env h i t u) (hcall : i ≠ .call) (hiret : i ≠ .iret) :
    ∃ next, u = { t.exec i with eip := next } ∧ K.area.lo + i.room ≤ t.esp.toNat := by
  cases hdo with
  | plain i s next _ _ hroom => exact ⟨next, rfl, hroom⟩
  | iret => exact absurd rfl hiret
  | call => exact absurd rfl hcall

/-- The words on the stack and the registers but the stack pointer. -/
structure Holds (K : Kernel) (s₀ s : Machine) (ws : List Word) (f : Reg → Word) : Prop where
  stacked : Stacked K.area s₀ s ws
  reg : ∀ r ≠ .esp, s.reg r = f r

namespace Holds

variable {f : Reg → Word} {v : Word}

/-- One instruction, after what is delivered before it. -/
theorem next (hs : Holds K s₀ s ws f) (hsound : Sound K env) (hready : Ready K s₀)
    (hr : Runs K.area env h (i :: is) s s') :
    ∃ t u, Holds K s₀ t ws f ∧ Does K.area env h i t u ∧ Runs K.area env h is u s' := by
  obtain ⟨t, u, henv, hdo, hrest⟩ := runs_cons hr
  have hkept := hsound.run (hready.stacked hs.stacked) henv
  refine ⟨t, u, ⟨hs.stacked.kept hready.esp hkept, fun r hne => ?_⟩, hdo, hrest⟩
  rw [hkept.reg, hs.reg r hne]

theorem withEip (hs : Holds K s₀ t ws f) (next : Word) : Holds K s₀ { t with eip := next } ws f :=
  ⟨hs.stacked.of_eq rfl rfl rfl, hs.reg⟩

theorem flags (hs : Holds K s₀ t ws f) (hi : i = .cli ∨ i = .sti ∨ i = .cld)
    (hdo : Does K.area env h i t u) :
    Holds K s₀ u ws f := by
  obtain rfl | rfl | rfl := hi <;>
  · obtain ⟨next, rfl, -⟩ := hdo.eq (by decide) (by decide)
    exact ⟨hs.stacked.of_eq rfl rfl rfl, hs.reg⟩

theorem movEbp (hs : Holds K s₀ t ws f)
    (hdo : Does K.area env h (.mov .ebp .esp) t u) :
    Holds K s₀ u ws (Function.update f .ebp t.esp) := by
  obtain ⟨next, rfl, -⟩ := hdo.eq (by decide) (by decide)
  refine ⟨hs.stacked.of_eq rfl rfl rfl, fun r hne => ?_⟩
  by_cases hr : r = .ebp
  · rw [hr, Function.update_self]
    exact Machine.set_self t .ebp _
  · rw [Function.update_of_ne hr, ← hs.reg r hne]
    exact Machine.set_of_ne t _ hr

theorem push (hs : Holds K s₀ t ws f) (hdo : Does K.area env h (.push v) t u) :
    Holds K s₀ u (v :: ws) f := by
  obtain ⟨next, rfl, hroom⟩ := hdo.eq (by simp) (by simp)
  refine ⟨(hs.stacked.push hroom v).of_eq rfl rfl rfl, fun r hne => ?_⟩
  rw [← hs.reg r hne]
  exact Machine.push_reg t v hne

theorem pushSeg (hs : Holds K s₀ t ws f) {p : Seg}
    (hdo : Does K.area env h (.pushSeg p) t u) :
    Holds K s₀ u ((s₀.seg p).setWidth 32 :: ws) f := by
  obtain ⟨next, rfl, hroom⟩ := hdo.eq (by simp) (by simp)
  rw [← hs.stacked.seg]
  refine ⟨(hs.stacked.push hroom _).of_eq rfl rfl rfl, fun r hne => ?_⟩
  rw [← hs.reg r hne]
  exact Machine.push_reg t ((t.seg p).setWidth 32) hne

theorem pushad (hs : Holds K s₀ t ws f) (hdo : Does K.area env h .pushad t u) :
    Holds K s₀ u (Stacked.saved (Function.update f .esp t.esp) ++ ws) f := by
  obtain ⟨next, rfl, hroom⟩ := hdo.eq (by decide) (by decide)
  have hreg : t.reg = Function.update f .esp t.esp := by
    funext r
    by_cases hr : r = .esp
    · rw [hr, Function.update_self]
      rfl
    · rw [Function.update_of_ne hr, hs.reg r hr]
  have hpush := hs.stacked.pushAll hroom
  rw [hreg] at hpush
  have hexec : t.exec .pushad = t.pushAll := rfl
  rw [hexec]
  refine withEip ⟨hpush, fun r hne => ?_⟩ next
  rw [← hs.reg r hne]
  exact Machine.pushes_reg t _ hne

theorem addEsp (us : List Word) {n : Word} (hs : Holds K s₀ t (us ++ ws) f)
    (hn : n.toNat = 4 * us.length) (hdo : Does K.area env h (.addEsp n) t u) :
    Holds K s₀ u ws f := by
  obtain ⟨next, rfl, -⟩ := hdo.eq (by simp) (by simp)
  refine withEip ⟨hs.stacked.drops us hn, fun r hne => ?_⟩ next
  rw [← hs.reg r hne]
  exact Machine.drop_reg t n hne

theorem popad {f' : Reg → Word} (hs : Holds K s₀ t (Stacked.saved f' ++ ws) f)
    (hdo : Does K.area env h .popad t u) : Holds K s₀ u ws f' := by
  obtain ⟨next, rfl, -⟩ := hdo.eq (by decide) (by decide)
  have hexec : t.exec .popad = t.popAll := rfl
  obtain ⟨hpop, hreg⟩ := hs.stacked.popAll
  rw [hexec]
  exact withEip ⟨hpop, hreg⟩ next

/-- A handler returns with the words above its arguments as they were. -/
theorem call (us ws : List Word) (hs : Holds K s₀ t (us ++ ws) f) (hsound : Sound K env)
    (hready : Ready K s₀) (hcdecl : h.Cdecl K.area (4 * us.length))
    (hdo : Does K.area env h .call t u) :
    ∃ us' f', us'.length = us.length ∧ Holds K s₀ u (us' ++ ws) f' := by
  cases hdo with
  | plain _ _ _ hcall => exact absurd rfl hcall
  | call _ u next hroom hrun hret =>
    -- at the entry of the handler the return address is on the stack
    have hentry : Stacked K.area s₀ { t.exec .call with eip := next } (t.eip :: (us ++ ws)) :=
      (hs.stacked.push hroom t.eip).of_eq rfl rfl rfl
    generalize { t.exec .call with eip := next } = s at hrun hentry
    have hstay : ∀ a, ReflTransGen (fun a b => h.step a b ∨ Kept K.area a b) s a → Ready K a := by
      intro a ha
      have hbelow := hcdecl.below s a ha
      have hesp := (hready.stacked hentry).esp
      have hsub := hentry.esp
      have htop := hready.esp
      rw [List.length_cons, List.length_append] at hsub
      exact (hready.stacked hentry).of_mem (by omega) fun x hx hout =>
        hcdecl.mem s a ha x hx (by omega)
    obtain ⟨hrun, -⟩ := Runs.run_mono
      (ReflTransGen (fun a b => h.step a b ∨ Kept K.area a b) s) hrun .refl
      (fun _ _ ha hab => ha.tail hab)
      fun a b ha hab => hab.imp id fun henv => hsound a b (hstay a ha) henv
    obtain ⟨us', hlength, hus⟩ := hentry.returned hready.esp (hcdecl.esp s u hrun hret)
      (hcdecl.seg s u hrun hret) (hcdecl.mem s u hrun)
    exact ⟨us', u.leave.reg, hlength, hus, fun _ _ => rfl⟩

end Holds

/-! ## One interrupt -/

/-- What a delivery leaves on the stack. -/
def delivered (s : Machine) (err : Option Word) : List Word :=
  err.toList ++ [s.eip, s.cs.setWidth 32, s.eflags]

/-- The registers that a `pushad` saves behind that many words. -/
def regsBelow (s : Machine) (n : ℕ) : Reg → Word :=
  Function.update s.reg .esp (s.esp - BitVec.ofNat 32 (4 * n))

theorem holds_deliver (hroom : K.area.lo + 16 ≤ s.esp.toNat) (g : Gate) (err : Option Word) :
    Holds K s (deliver g err s) (delivered s err) s.reg := by
  have hnil : Stacked K.area s s [] :=
    ⟨rfl, trivial, by omega, fun _ _ _ => rfl, rfl⟩
  have hframe := hnil.pushes [s.eflags, s.cs.setWidth 32, s.eip] (by simp; omega)
  have hreg : ∀ r ≠ .esp, ([s.eflags, s.cs.setWidth 32, s.eip].foldl Machine.push s).reg r =
    s.reg r := fun r hne => Machine.pushes_reg s _ hne
  simp only [List.foldl_cons, List.foldl_nil] at hframe hreg
  unfold deliver
  generalize ((s.push s.eflags).push (s.cs.setWidth 32)).push s.eip = t at hframe hreg ⊢
  cases err with
  | none => exact ⟨hframe.of_eq rfl rfl rfl, hreg⟩
  | some code =>
    have hesp := hframe.esp
    simp only [List.reverse_cons, List.reverse_nil, List.length_append, List.length_cons,
      List.length_nil] at hesp
    have hpush := hframe.push (by omega) code
    refine ⟨hpush.of_eq rfl rfl rfl, fun r hne => ?_⟩
    rw [← hreg r hne]
    exact Machine.push_reg t code hne

theorem Stacked.esp_eq (hs : Stacked K.area s₀ s ws) :
    s.esp = s₀.esp - BitVec.ofNat 32 (4 * ws.length) := by
  have hesp := hs.esp
  have hlt := s₀.esp.isLt
  apply BitVec.eq_of_toNat_eq
  rw [BitVec.toNat_sub, BitVec.toNat_ofNat, Nat.mod_eq_of_lt (show 4 * ws.length < 2 ^ 32 by omega)]
  omega

/-- The registers that are saved are those of the interrupted code. -/
theorem Holds.saves (hs : Holds K s₀ t ws s₀.reg) (hdo : Does K.area env h .pushad t u) :
    Holds K s₀ u (Stacked.saved (regsBelow s₀ ws.length) ++ ws) s₀.reg := by
  rw [regsBelow, ← hs.stacked.esp_eq]
  exact hs.pushad hdo

/-- The interrupted code with other registers, its stack pointer apart. -/
def Machine.withRegs (s : Machine) (f : Reg → Word) : Machine :=
  { s with reg := Function.update f .esp s.esp }

theorem withRegs_regsBelow (s : Machine) (n : ℕ) : s.withRegs (regsBelow s n) = s := by
  rw [Machine.withRegs, regsBelow, Function.update_idem]
  have hreg : Function.update s.reg .esp s.esp = s.reg := Function.update_eq_self _ _
  rw [hreg]

/-- With what the processor has pushed on the stack, `iret` returns to the interrupted code. -/
theorem Holds.iret {f : Reg → Word} (hs : Holds K s₀ t [s₀.eip, s₀.cs.setWidth 32, s₀.eflags] f)
    (hdo : Does K.area env h .iret t u) : Kept K.area (s₀.withRegs f) u := by
  cases hdo with
  | plain _ _ _ _ hiret => exact absurd rfl hiret
  | iret =>
    have hend : Stacked K.area s₀ (t.drop 12) [] :=
      hs.stacked.drops [s₀.eip, s₀.cs.setWidth 32, s₀.eflags] rfl
    have hesp : (t.drop 12).esp = s₀.esp := by
      rw [hend.esp_eq]
      simp
    have hword (k : ℕ) (hk : k < 12) : (t.esp + BitVec.ofNat 32 k).toNat = t.esp.toNat + k := by
      have hsub := hs.stacked.esp
      have hlt := s₀.esp.isLt
      simp only [List.length_cons, List.length_nil] at hsub
      rw [BitVec.toNat_add, BitVec.toNat_ofNat, Nat.mod_eq_of_lt (show k < 2 ^ 32 by omega)]
      exact Nat.mod_eq_of_lt (by omega)
    have hself : (s₀.withRegs f).esp = s₀.esp := by simp [Machine.withRegs, Machine.esp]
    refine ⟨funext fun r => ?_, hs.stacked.top, ?_, ?_, hend.seg, fun x hx hout => ?_⟩
    · by_cases hr : r = .esp
      · rw [hr]
        exact hesp.trans hself.symm
      · have hreg : (t.drop 12).reg r = f r := by rw [Machine.drop_reg t 12 hr, hs.reg r hr]
        exact hreg.trans (Function.update_of_ne hr _ _).symm
    · refine loadWord_of_toNat ?_
      rw [show (8 : Word) = BitVec.ofNat 32 8 from rfl, hword 8 (by decide)]
      exact hs.stacked.words.get (i := 2) (by simp)
    · have hcs : loadWord t.mem (t.esp + 4) = s₀.cs.setWidth 32 := by
        refine loadWord_of_toNat ?_
        rw [show (4 : Word) = BitVec.ofNat 32 4 from rfl, hword 4 (by decide)]
        exact hs.stacked.words.get (i := 1) (by simp)
      have hwidth : (loadWord t.mem (t.esp + 4)).setWidth 16 = s₀.cs := by
        rw [hcs, BitVec.setWidth_setWidth_of_le _ (by decide), BitVec.setWidth_eq]
      exact hwidth
    · rw [hself] at hout
      exact hend.mem x hx hout

section Stubs

variable (hsound : Sound K env) (hready : Ready K s₀) (hs : Holds K s₀ s ws s₀.reg)

include hsound hready hs

theorem interrupt_before (hr : Runs K.area env h (stubInterrupt irq).before s s') :
    ∃ f, Holds K s₀ s' (irq :: (Stacked.saved (regsBelow s₀ ws.length) ++ ws)) f := by
  obtain ⟨t, u, ht, hdo, hr⟩ := hs.next hsound hready hr
  obtain ⟨t, u, ht, hdo, hr⟩ := (ht.saves hdo).next hsound hready hr
  obtain ⟨t, u, ht, hdo, hr⟩ := (ht.movEbp hdo).next hsound hready hr
  obtain ⟨t, u, ht, hdo, hr⟩ := (ht.flags (by simp) hdo).next hsound hready hr
  cases hr
  exact ⟨_, ht.push hdo⟩

/-- The stub of a line returns with the registers of the interrupted code. -/
theorem interrupt_code (hcdecl : h.Cdecl K.area 4)
    (hws : ws = [s₀.eip, s₀.cs.setWidth 32, s₀.eflags])
    (hr : Runs K.area env h (stubInterrupt irq).code s s') : Kept K.area s₀ s' := by
  obtain ⟨t, hbefore, hr⟩ := runs_append hr
  obtain ⟨f, ht⟩ := interrupt_before hsound hready hs hbefore
  obtain ⟨t, u, ht, hdo, hr⟩ := ht.next hsound hready hr
  obtain ⟨us, f', hus, hu⟩ := ht.call [irq] _ hsound hready hcdecl hdo
  obtain ⟨t, u, ht, hdo, hr⟩ := hu.next hsound hready hr
  obtain ⟨t, u, ht, hdo, hr⟩ := (ht.addEsp us (by rw [hus]; rfl) hdo).next hsound hready hr
  obtain ⟨t, u, ht, hdo, hr⟩ := (ht.popad hdo).next hsound hready hr
  cases hr
  subst hws
  have hkept := ht.iret hdo
  rwa [withRegs_regsBelow] at hkept

end Stubs

/-! ## The gates lead where they should -/

/-- The gate of an accepted interrupt is the one of its label. -/
theorem labelAt_of_accepted (hs : Ready K s) (hacc : e.Accepted (K.gate s e) s)
    (hoffset : (K.gate s e).offset = K.addr l) : labelAt e.vector = some l := by
  have hgate : K.gate s e = (labelAt e.vector).elim ⟨0, 0, 0⟩
      fun l => ⟨K.addr l, 0x08, IDT_KERN_TRAP⟩ := by
    rw [← asked_registrations]
    exact hs.gates _ hacc.vector
  have hpresent := hacc.present
  rw [hgate] at hoffset hpresent
  cases hl : labelAt e.vector with
  | none =>
    rw [hl] at hpresent
    exact absurd hpresent (by simp)
  | some l' =>
    rw [hl] at hoffset
    exact congrArg some (K.addr_inj hoffset)

/-- The vector that leads to a stub. -/
def Label.vector : Label → Option ℕ
  | .divisionError => some 0x00
  | .nonMaskableInterrupt => some 0x02
  | .generalProtectionFault => some 0x0D
  | .pageFault => some 0x0E
  | .systemTimerInterrupt => some 0x20
  | .ps2KeyboardInterrupt => some 0x21
  | .commonHandler => none

theorem vector_of_labelAt {v : ℕ} (h : labelAt v = some l) : ∀ n ∈ l.vector, v = n := by
  unfold labelAt at h
  split_ifs at h <;> obtain rfl := Option.some.inj h <;> rintro n ⟨⟩ <;> assumption

/-- The lines have no error code. -/
theorem err_of_line {n : ℕ} (hn : e.vector = n) (hline : 0x20 ≤ n) : e.err = none := by
  refine if_neg ?_
  rintro ⟨-, hmem⟩
  simp only [List.mem_cons, List.not_mem_nil, or_false] at hmem
  omega

/-! ## All interrupts -/

/-- A stub whose handler does not return does not return. -/
theorem forever_code {step : Machine → Machine → Prop} {p : Stub} :
    ¬Runs K.area env (.forever step) p.code s s' := by
  intro hr
  obtain ⟨t, -, hr⟩ := runs_append hr
  obtain ⟨t, u, -, hdo, -⟩ := runs_cons hr
  cases hdo with
  | plain _ _ _ hcall => exact absurd rfl hcall
  | call _ _ _ _ _ hret => exact hret

/-- The delivery at a line and the run of its stub. -/
theorem line_kept (hsound : Sound K env) (hs : Ready K s) (hroom : K.area.lo + 16 ≤ s.esp.toNat)
    (hcdecl : h.Cdecl K.area 4) (herr : e.err = none)
    (hr : Runs K.area env h (stubInterrupt irq).code (deliver g e.err s) s') :
    Kept K.area s s' := by
  rw [herr] at hr
  exact interrupt_code hsound hs (holds_deliver hroom g none) hcdecl rfl hr

/-- Whatever is nested in it, an interrupt that returns keeps what the interrupted code sees. -/
theorem serve_kept {depth : ℕ} (hs : Ready K s) (hserve : K.Serve depth s s') :
    Kept K.area s s' := by
  induction depth generalizing s s' with
  | zero => exact hserve.elim
  | succ depth ih =>
    obtain ⟨e, l, p, hacc, hoffset, hstub, hroom, hr⟩ := hserve
    have hlabel := labelAt_of_accepted hs hacc hoffset
    have hsound : Sound K (K.Serve depth) := fun a b ha hab => ih ha hab
    cases l with
    | systemTimerInterrupt =>
      obtain rfl := Option.some.inj hstub
      have hv := vector_of_labelAt hlabel _ rfl
      exact line_kept hsound hs hroom K.timer_cdecl (err_of_line hv (by decide)) hr
    | ps2KeyboardInterrupt =>
      obtain rfl := Option.some.inj hstub
      have hv := vector_of_labelAt hlabel _ rfl
      exact line_kept hsound hs hroom K.keyboard_cdecl (err_of_line hv (by decide)) hr
    | commonHandler => cases hstub
    | _ => exact absurd hr forever_code

/-- The table is as `main` leaves it, from a table of zeros. -/
theorem ready_of_init {m : Mem} (hzero : ∀ x, K.idtTbl ≤ x →
      x < K.idtTbl + sizeofEntry * IDT_MAX_ENTRYS → m.byte x = 0)
    (hmem : s.mem = registerAll K.idtTbl m K.registrations) (hesp : s.esp.toNat ≤ K.area.hi) :
    Ready K s := by
  refine ⟨hesp, fun v hv => ?_⟩
  rw [hmem, gateAt_registerAll _ _ _ hv.le]
  congr 1
  rw [IDT_MAX_ENTRYS] at hv
  have hbyte (x : ℕ) (hx : K.idtTbl + 8 * v ≤ x) (hx' : x < K.idtTbl + 8 * v + 8) : m.byte x = 0 :=
    hzero x (by omega) (by rw [sizeofEntry, IDT_MAX_ENTRYS]; omega)
  have hhalf (x : ℕ) (hx : K.idtTbl + 8 * v ≤ x) (hx' : x + 2 ≤ K.idtTbl + 8 * v + 8) :
      load16 m x = 0 := by
    simp only [load16, load8, hbyte x hx (by omega), hbyte (x + 1) (by omega) (by omega)]
    rfl
  simp only [gateAt, sizeofEntry]
  rw [hhalf _ (by omega) (by omega), hhalf _ (by omega) (by omega), hhalf _ (by omega) (by omega),
    hbyte _ (by omega) (by omega)]
  rfl

/-- The program keeps to its stack and leaves the table alone. -/
structure Behaves (K : Kernel) (prog : Machine → Machine → Prop) : Prop where
  esp : ∀ a b, prog a b → b.esp.toNat ≤ K.area.hi
  idt : ∀ a b, prog a b → ∀ x, K.idtTbl ≤ x → x < K.idtTbl + sizeofEntry * IDT_MAX_ENTRYS →
    b.mem.byte x = a.mem.byte x

theorem Behaves.ready {prog : Machine → Machine → Prop} (hprog : Behaves K prog) (ha : Ready K a)
    (hab : prog a b) : Ready K b := by
  refine ⟨hprog.esp a b hab, fun v hv => ?_⟩
  rw [← ha.gates v hv]
  refine gateAt_congr fun x hx hx' => ?_
  rw [IDT_MAX_ENTRYS] at hv
  exact hprog.idt a b hab x (by omega) (by rw [sizeofEntry, IDT_MAX_ENTRYS]; omega)

/-- The states of the program and the interrupts after `main` has registered the handlers. -/
def Kernel.Reachable (K : Kernel) (prog : Machine → Machine → Prop) (s : Machine) : Prop :=
  ∃ (m : Mem) (s₀ : Machine),
    (∀ x, K.idtTbl ≤ x → x < K.idtTbl + sizeofEntry * IDT_MAX_ENTRYS → m.byte x = 0) ∧
    s₀.mem = registerAll K.idtTbl m K.registrations ∧ s₀.esp.toNat ≤ K.area.hi ∧
    ReflTransGen (fun a b => prog a b ∨ ∃ depth, K.Serve depth a b) s₀ s

theorem Kernel.Reachable.ready {prog : Machine → Machine → Prop} (hprog : Behaves K prog)
    (hs : K.Reachable prog s) : Ready K s := by
  obtain ⟨m, s₀, hzero, hmem, hesp, hrun⟩ := hs
  exact Runs.invariant_of_run hrun (ready_of_init hzero hmem hesp)
    fun a b ha hab => hab.elim (hprog.ready ha) fun ⟨_, hserve⟩ => ha.kept (serve_kept ha hserve)

/-- A handler that writes only its data. -/
theorem cdecl_of_data {A : Area} {h : Handler} {args : ℕ} (hstep : ∀ a b, h.step a b → b.reg = a.reg ∧
      b.seg = a.seg ∧ ∀ x, ¬A.data x → b.mem.byte x = a.mem.byte x) :
    h.Cdecl A args := by
  have hrun (s u : Machine) (hu : ReflTransGen (fun a b => h.step a b ∨ Kept A a b) s u) :
      u.esp = s.esp ∧ u.seg = s.seg ∧
        ∀ x, ¬A.data x → x < A.lo ∨ s.esp.toNat ≤ x → u.mem.byte x = s.mem.byte x := by
    induction hu with
    | refl => exact ⟨rfl, rfl, fun _ _ _ => rfl⟩
    | tail _ hab ih =>
      obtain ⟨hesp, hseg, hmem⟩ := ih
      rcases hab with hab | hab
      · obtain ⟨hreg, hseg', hmem'⟩ := hstep _ _ hab
        exact ⟨(congrFun hreg .esp).trans hesp, hseg'.trans hseg,
          fun x hx hout => (hmem' x hx).trans (hmem x hx hout)⟩
      · refine ⟨hab.esp.trans hesp, hab.seg.trans hseg, fun x hx hout => ?_⟩
        rw [hab.mem x hx (by rwa [hesp]), hmem x hx hout]
  refine ⟨fun s u hu => ?_, fun s u hu x hx hout => ?_, fun s u hu _ => (hrun s u hu).1,
    fun s u hu _ => (hrun s u hu).2.1⟩
  · rw [(hrun s u hu).1]
  · exact (hrun s u hu).2.2 x hx (by omega)

/-- A stack of 4 KiB, and the count of the ticks at `0x8000`. -/
def tinyArea : Area where
  lo := 0x1000
  hi := 0x2000
  data := fun x => 0x8000 ≤ x ∧ x < 0x8004
  apart := fun _ hx => Or.inr (le_trans (by decide) hx.1)

def tinyAddr : Label → Word
  | .divisionError => 0xA000
  | .nonMaskableInterrupt => 0xA020
  | .generalProtectionFault => 0xA040
  | .pageFault => 0xA060
  | .systemTimerInterrupt => 0xA080
  | .ps2KeyboardInterrupt => 0xA0A0
  | .commonHandler => 0xA0C0

theorem tinyAddr_inj : Function.Injective tinyAddr := by
  intro l l' h
  cases l <;> cases l' <;> first | rfl | exact absurd h (by decide)

theorem tinyArea_idt : ∀ x, 0x9000 ≤ x → x < 0x9000 + sizeofEntry * IDT_MAX_ENTRYS →
    ¬tinyArea.data x ∧ (x < tinyArea.lo ∨ tinyArea.hi ≤ x) := by
  intro x hlo hhi
  refine ⟨fun hdata => ?_, Or.inr (le_trans (by decide) hlo)⟩
  have hlt : x < 0x8004 := hdata.2
  omega

/-- `isr_system_timer_handler`, as one step. -/
def tinyTimer : Handler where
  step := fun s t => s.eip = 0xB000 ∧ t = { s with
    eip := 0xB001
    mem := store32 s.mem 0x8000 (load32 s.mem 0x8000 + 1) }
  ret := fun s => s.eip = 0xB001

/-- `isr_ps2_keyboard_interrupt_handler` for the code of a key that is released. -/
def tinyKeyboard : Handler := ⟨fun _ _ => False, fun _ => True⟩

theorem tinyTimer_cdecl : tinyTimer.Cdecl tinyArea 4 :=
  cdecl_of_data fun a b hab => by
    obtain ⟨-, rfl⟩ := hab
    refine ⟨rfl, rfl, fun x hx => frame_store32 _ _ _ x ?_⟩
    by_contra hin
    exact hx ⟨by omega, by omega⟩

theorem tinyKeyboard_cdecl : tinyKeyboard.Cdecl tinyArea 4 := cdecl_of_data fun _ _ hab => hab.elim

def tinyKernel : Kernel where
  area := tinyArea
  idtTbl := 0x9000
  addr := tinyAddr
  addr_inj := tinyAddr_inj
  idt_apart := tinyArea_idt
  fault := fun _ _ _ => False
  isrSystemTimerHandler := tinyTimer
  isrPs2KeyboardInterruptHandler := tinyKeyboard
  timer_cdecl := tinyTimer_cdecl
  keyboard_cdecl := tinyKeyboard_cdecl

/-- The machine behind `sti`. -/
def tinyMachine : Machine where
  reg := fun r => if r = .esp then 0x1800 else 7
  eip := 0xC000
  mem := registerAll tinyKernel.idtTbl ⟨fun _ => 0⟩ tinyKernel.registrations
  eflags := 0x202
  cs := 0x08
  seg := fun _ => 0x10

/-- A program that does nothing. -/
def idle (a b : Machine) : Prop := a.esp.toNat ≤ 0x2000 ∧ b = { a with eip := a.eip + 1 }

theorem behaves_idle : Behaves tinyKernel idle where
  esp := by
    rintro a b ⟨hesp, rfl⟩
    exact hesp
  idt := by
    rintro a b ⟨-, rfl⟩ x _ _
    rfl

theorem reachable_tiny : tinyKernel.Reachable idle tinyMachine :=
  ⟨⟨fun _ => 0⟩, tinyMachine, fun _ _ _ => rfl, rfl, by decide, .refl⟩

theorem ready_tiny : Ready tinyKernel tinyMachine := reachable_tiny.ready behaves_idle

/-- The timer interrupts the program. -/
theorem serve_tiny : ∃ s, tinyKernel.Serve 1 tinyMachine s := by
  have hgate : tinyKernel.gate tinyMachine ⟨.external, 0x20, 0⟩ = ⟨0xA080, 0x08, IDT_KERN_TRAP⟩ := by
    refine (ready_tiny.gates 0x20 (by decide)).trans ?_
    rw [asked_registrations]
    rfl
  suffices hruns : ∃ s, Runs tinyKernel.area (tinyKernel.Serve 0) tinyKernel.isrSystemTimerHandler
      isrSystemTimerInterrupt.code (deliver ⟨0xA080, 0x08, IDT_KERN_TRAP⟩ none tinyMachine) s by
    obtain ⟨s, hs⟩ := hruns
    refine ⟨s, ⟨.external, 0x20, 0⟩, .systemTimerInterrupt, _, ?_, ?_, rfl, by decide, ?_⟩
    · rw [hgate]
      exact ⟨by decide, by decide, fun _ => by decide⟩
    · rw [hgate]
      rfl
    · rw [hgate]
      exact hs
  exact ⟨_, .cons .refl (.plain .pushad _ 0 (by decide) (by decide) (by decide)) <|
    .cons .refl (.plain (.mov .ebp .esp) _ 0 (by decide) (by decide) (by decide)) <|
    .cons .refl (.plain .cld _ 0 (by decide) (by decide) (by decide)) <|
    .cons .refl (.plain (.push 32) _ 0 (by decide) (by decide) (by decide)) <|
    .cons .refl (.call _ _ 0xB000 (by decide) (.single (Or.inl ⟨rfl, rfl⟩)) rfl) <|
    .cons .refl (.plain (.addEsp 4) _ 0 (by decide) (by decide) (by decide)) <|
    .cons .refl (.plain .popad _ 0 (by decide) (by decide) (by decide)) <|
    .cons .refl (.iret _) <| .nil _⟩

end YohdaOS.P32.Isr
