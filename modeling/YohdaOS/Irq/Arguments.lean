import YohdaOS.Irq.Nesting

/-!
# What a handler is called with

The handlers of the general protection fault and of the page fault take a `struct exception_info` by
value, which is what their stubs have pushed.  `isr_common_handler` is in the table itself, without a
stub, and finds a word that the processor has pushed where its argument should be.
-/

namespace YohdaOS.P32.Isr

open ByteMem Switch Relation

/-- `struct exception_info`, without the fields for a fault of user code. -/
structure ExceptionInfo where
  ds : Word
  es : Word
  fs : Word
  gs : Word
  edi : Word
  esi : Word
  ebp : Word
  esp : Word
  ebx : Word
  edx : Word
  ecx : Word
  eax : Word
  irq : Word
  err : Word
  eip : Word
  cs : Word
  eflags : Word
deriving DecidableEq, Repr

/-- The structure at an address. -/
def readInfo (m : Mem) (a : ℕ) : ExceptionInfo :=
  let field := fun k => BitVec.ofNat 32 (load32 m (a + 4 * k))
  ⟨field 0, field 1, field 2, field 3, field 4, field 5, field 6, field 7, field 8, field 9, field 10,
    field 11, field 12, field 13, field 14, field 15, field 16⟩

/-- The state of the interrupted code; its stack pointer was 20 higher. -/
def infoOf (s : Machine) (irq err : Word) : ExceptionInfo where
  ds := (s.seg .ds).setWidth 32
  es := (s.seg .es).setWidth 32
  fs := (s.seg .fs).setWidth 32
  gs := (s.seg .gs).setWidth 32
  edi := s.reg .edi
  esi := s.reg .esi
  ebp := s.reg .ebp
  esp := s.esp - 20
  ebx := s.reg .ebx
  edx := s.reg .edx
  ecx := s.reg .ecx
  eax := s.reg .eax
  irq := irq
  err := err
  eip := s.eip
  cs := s.cs.setWidth 32
  eflags := s.eflags

/-- An interrupt that is delivered in the first state has entered the code of its handler in the
second. -/
def Kernel.Entered (K : Kernel) (depth : ℕ) (e : Event) (l : Label) (s u : Machine) : Prop :=
  e.Accepted (K.gate s e) s ∧ (K.gate s e).offset = K.addr l ∧ K.area.lo + 16 ≤ s.esp.toNat ∧
    match l.stub with
    | some p => ∃ t v next,
        Runs K.area (K.Serve depth) (K.handler l) p.before (deliver (K.gate s e) e.err s) t ∧
        ReflTransGen (K.Serve depth) t v ∧ K.area.lo + 4 ≤ v.esp.toNat ∧
        u = { v.exec .call with eip := next }
    | none => ReflTransGen (K.Serve depth) (deliver (K.gate s e) e.err s) u

/-- What the handler takes for its argument; behind the stack pointer is the return address. -/
def Called (e : Event) (l : Label) (s u : Machine) : Prop :=
  match l with
  | .generalProtectionFault | .pageFault =>
    e.cause = .exception →
      readInfo u.mem (u.esp.toNat + 4) = infoOf s (BitVec.ofNat 32 e.vector) e.code
  | .commonHandler =>
    BitVec.ofNat 32 (load32 u.mem (u.esp.toNat + 4)) = if e.err = none then s.cs.setWidth 32 else s.eip
  | _ => BitVec.ofNat 32 (load32 u.mem (u.esp.toNat + 4)) = BitVec.ofNat 32 e.vector

variable {K : Kernel} {s s₀ s' t u : Machine} {ws : List Word} {env : Machine → Machine → Prop}
  {h : Handler} {irq err w : Word} {e : Event} {l : Label} {depth : ℕ} {m : Mem} {a : ℕ}

section Stubs

variable (hsound : Sound K env) (hready : Ready K s₀) (hs : Holds K s₀ s ws s₀.reg)

include hsound hready hs

theorem plain_before (hr : Runs K.area env h (stubPlain irq).before s s') :
    ∃ f, Holds K s₀ s' (irq :: 0 :: (Stacked.saved (regsBelow s₀ ws.length) ++ ws)) f := by
  obtain ⟨t, u, ht, hdo, hr⟩ := hs.next hsound hready hr
  obtain ⟨t, u, ht, hdo, hr⟩ := (ht.flags (by simp) hdo).next hsound hready hr
  obtain ⟨t, u, ht, hdo, hr⟩ := (ht.saves hdo).next hsound hready hr
  obtain ⟨t, u, ht, hdo, hr⟩ := (ht.movEbp hdo).next hsound hready hr
  obtain ⟨t, u, ht, hdo, hr⟩ := (ht.flags (by simp) hdo).next hsound hready hr
  obtain ⟨t, u, ht, hdo, hr⟩ := (ht.push hdo).next hsound hready hr
  cases hr
  exact ⟨_, ht.push hdo⟩

/-- The words of a `struct exception_info`. -/
theorem info_before (hr : Runs K.area env h (stubInfo irq).before s s') :
    ∃ f, Holds K s₀ s' ((s₀.seg .ds).setWidth 32 :: (s₀.seg .es).setWidth 32 ::
      (s₀.seg .fs).setWidth 32 :: (s₀.seg .gs).setWidth 32 ::
        (Stacked.saved (regsBelow s₀ (ws.length + 1)) ++ irq :: ws)) f := by
  obtain ⟨t, u, ht, hdo, hr⟩ := hs.next hsound hready hr
  obtain ⟨t, u, ht, hdo, hr⟩ := (ht.flags (by simp) hdo).next hsound hready hr
  obtain ⟨t, u, ht, hdo, hr⟩ := (ht.flags (by simp) hdo).next hsound hready hr
  obtain ⟨t, u, ht, hdo, hr⟩ := (ht.push hdo).next hsound hready hr
  obtain ⟨t, u, ht, hdo, hr⟩ := (ht.saves hdo).next hsound hready hr
  obtain ⟨t, u, ht, hdo, hr⟩ := (ht.pushSeg hdo).next hsound hready hr
  obtain ⟨t, u, ht, hdo, hr⟩ := (ht.pushSeg hdo).next hsound hready hr
  obtain ⟨t, u, ht, hdo, hr⟩ := (ht.pushSeg hdo).next hsound hready hr
  cases hr
  exact ⟨_, ht.pushSeg hdo⟩

end Stubs

/-- The call leaves the words behind the return address. -/
theorem words_of_call {f : Reg → Word} (hsound : Sound K env) (hready : Ready K s₀)
    (hs : Holds K s₀ t ws f) (henv : ReflTransGen env t s) (hroom : K.area.lo + 4 ≤ s.esp.toNat)
    (next : Word) :
    WordsAt ({ s.exec .call with eip := next } : Machine).mem
      (({ s.exec .call with eip := next } : Machine).esp.toNat + 4) ws := by
  have hkept := hsound.run (hready.stacked hs.stacked) henv
  have hcall : Stacked K.area s₀ { s.exec .call with eip := next } (s.eip :: ws) :=
    ((hs.stacked.kept hready.esp hkept).push hroom s.eip).of_eq rfl rfl rfl
  exact hcall.words.tail

theorem word_head (hw : WordsAt m a (w :: ws)) : BitVec.ofNat 32 (load32 m a) = w := by
  rw [hw.head, BitVec.ofNat_toNat, BitVec.setWidth_eq]

/-- The words of the structure, from the lowest address on. -/
def ExceptionInfo.words (x : ExceptionInfo) : List Word :=
  [x.ds, x.es, x.fs, x.gs, x.edi, x.esi, x.ebp, x.esp, x.ebx, x.edx, x.ecx, x.eax, x.irq, x.err,
    x.eip, x.cs, x.eflags]

theorem readInfo_eq {x : ExceptionInfo} {us : List Word} (hw : WordsAt m a (x.words ++ us)) :
    readInfo m a = x := by
  have field (k : ℕ) (hk : k < 17) :
      BitVec.ofNat 32 (load32 m (a + 4 * k)) = (x.words ++ us).getD k 0 := by
    have hlength : k < (x.words ++ us).length := by
      rw [List.length_append]
      exact Nat.lt_add_right _ hk
    rw [hw.get hlength, BitVec.ofNat_toNat, BitVec.setWidth_eq, List.getD_eq_getElem?_getD,
      List.getElem?_eq_getElem hlength, Option.getD_some]
  simp only [readInfo]
  rw [field 0 (by decide), field 1 (by decide), field 2 (by decide), field 3 (by decide),
    field 4 (by decide), field 5 (by decide), field 6 (by decide), field 7 (by decide),
    field 8 (by decide), field 9 (by decide), field 10 (by decide), field 11 (by decide),
    field 12 (by decide), field 13 (by decide), field 14 (by decide), field 15 (by decide),
    field 16 (by decide)]
  rfl

theorem words_infoOf (s : Machine) (irq err : Word) :
    (s.seg .ds).setWidth 32 :: (s.seg .es).setWidth 32 :: (s.seg .fs).setWidth 32 ::
      (s.seg .gs).setWidth 32 ::
        (Stacked.saved (regsBelow s 5) ++ irq :: delivered s (some err)) =
      (infoOf s irq err).words ++ [] := by
  have hesp : regsBelow s 5 .esp = s.esp - 20 := Function.update_self _ _ _
  have hreg (r : Reg) (hr : r ≠ .esp) : regsBelow s 5 r = s.reg r := Function.update_of_ne hr _ _
  simp only [Stacked.saved, List.map_cons, List.map_nil, hesp, hreg _ (by decide : Reg.edi ≠ .esp),
    hreg _ (by decide : Reg.esi ≠ .esp), hreg _ (by decide : Reg.ebp ≠ .esp),
    hreg _ (by decide : Reg.ebx ≠ .esp), hreg _ (by decide : Reg.edx ≠ .esp),
    hreg _ (by decide : Reg.ecx ≠ .esp), hreg _ (by decide : Reg.eax ≠ .esp)]
  rfl

theorem err_of_fault (hcause : e.cause = .exception) (hv : e.vector ∈ [13, 14]) :
    e.err = some e.code := by
  refine if_pos ⟨hcause, ?_⟩
  simp only [List.mem_cons, List.not_mem_nil, or_false] at hv ⊢
  omega

end YohdaOS.P32.Isr
