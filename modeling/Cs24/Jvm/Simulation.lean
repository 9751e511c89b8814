/-
  Cs24.Jvm.Simulation — how a frame, a heap and a log of `execute` show the reference's,
  and what it takes for `execute` to go wherever the reference goes.

  A C frame keeps its operand stack in the `calloc`'d buffer of `max_stack` slots, the
  values in slots `[0, stack_size)`. The reference sees that prefix as a list, top first
  (`stackOf`, `Frame.abs`), once `stack_size` lies in the buffer (`Frame.Fits`). A heap
  array of the reference is `execute`'s array of `count + 1` slots, the count first
  (`Ref.IntArray.slots`), and the reference's printed lines are the prints of `execute`'s
  log (`GlobRel`).

  `Sim R x y`: wherever the reference's computation `y` succeeds, `execute`'s `x` succeeds
  too, with results related by `R`; `Sim.bind` and `Sim.map` follow two `do` blocks side
  by side. The shapes the handlers leave a frame in are said once: `Fits.shrink` for a
  frame with `k` values fewer on the same buffer, `Fits.write` for `stack_help`'s write
  at `stack_size - k`.
-/

import Cs24.Jvm.Reference
import Cs24.Jvm.Arrays

namespace Cs24.Jvm

/-- `operand_stack[n - 1]`, ..., `operand_stack[0]`: a stack of `n` values, top first. -/
def stackOf (l : List (BitVec 32)) : Nat → List (BitVec 32)
  | 0 => []
  | n + 1 => l.getD n 0 :: stackOf l n

section StackOf

variable {l : List (BitVec 32)} {v : BitVec 32}

@[simp] theorem stackOf_length (l : List (BitVec 32)) (n : Nat) : (stackOf l n).length = n := by
  induction n <;> simp [stackOf, *]

theorem stackOf_getD {n j : Nat} (h : j < n) : (stackOf l n).getD j 0 = l.getD (n - 1 - j) 0 := by
  induction n generalizing j with
  | zero => omega
  | succ n ih =>
    cases j with
    | zero => rfl
    | succ j =>
      rw [show n + 1 - 1 - (j + 1) = n - 1 - j by omega]
      exact ih (by omega)

theorem stackOf_drop (n k : Nat) : (stackOf l n).drop k = stackOf l (n - k) := by
  induction n generalizing k with
  | zero => simp [stackOf]
  | succ n ih =>
    cases k with
    | zero => rfl
    | succ k => simp [stackOf, ih]

theorem stackOf_set_of_le {i n : Nat} (h : n ≤ i) : stackOf (l.set i v) n = stackOf l n := by
  induction n with
  | zero => rfl
  | succ n ih => simp [stackOf, ih (by omega), List.getElem?_set_ne (show i ≠ n by omega)]

/-- Writing slot `n` and growing the stack to `n + 1` pushes. -/
theorem stackOf_set_succ {n : Nat} (h : n < l.length) : stackOf (l.set n v) (n + 1) = v :: stackOf l n := by
  simp [stackOf, stackOf_set_of_le (le_refl n), h]

end StackOf

/-- The reference's view of a frame: its program counter, the `stack_size` values of its
    buffer, top first, and its locals. -/
def Frame.abs (fr : Frame) : Ref.Frame :=
  ⟨fr.programCounter, stackOf fr.operandStack fr.stackSize.toNat, fr.locals⟩

/-- The buffer has `max_stack` slots, and `stack_size` lies in it. -/
structure Frame.Fits (m : Method) (fr : Frame) : Prop where
  length : fr.operandStack.length = m.maxStack
  nonneg : 0 ≤ fr.stackSize
  le : fr.stackSize ≤ m.maxStack

/-- `execute`'s frame `fr` fits its buffer and shows the reference frame `f`. -/
def FrameRel (m : Method) (fr : Frame) (f : Ref.Frame) : Prop := fr.Fits m ∧ fr.abs = f

namespace Frame

variable {m : Method} {fr : Frame} {v : BitVec 32}

theorem abs_advance (fr : Frame) (w : Nat) : (fr.advance w).abs = fr.abs.advance w := rfl

theorem Fits.advance (hfr : fr.Fits m) (w : Nat) : (fr.advance w).Fits m := ⟨hfr.1, hfr.2, hfr.3⟩

theorem Fits.size_eq (hfr : fr.Fits m) : fr.stackSize = fr.abs.stack.length := by
  simp only [Frame.abs, stackOf_length, Int.toNat_of_nonneg hfr.nonneg]

theorem Fits.room (hfr : fr.Fits m) : fr.abs.stack.length ≤ m.maxStack := by
  have := hfr.size_eq; have := hfr.le; omega

theorem Fits.top_eq (hfr : fr.Fits m) {k : Nat} (h1 : 1 ≤ k) (h2 : k ≤ fr.abs.stack.length) :
    fr.top k = fr.abs.stack.getD (k - 1) 0 := by
  have := hfr.size_eq
  rw [Frame.abs, stackOf_getD (by simp at h2 ⊢; omega), Frame.top]
  congr 1
  omega

theorem Fits.peek_eq (hfr : fr.Fits m) {k : Nat} (h1 : 1 ≤ k) (h2 : k ≤ fr.abs.stack.length) :
    fr.peek k = .ok (fr.abs.stack.getD (k - 1) 0) := by
  have := hfr.size_eq; have := hfr.room
  rw [peek_ok (by omega) (by omega) (by rw [hfr.length]; omega), hfr.top_eq h1 h2]

/-- The top as the one-operand handlers read it. -/
theorem Fits.top_one (hfr : fr.Fits m) {s : List (BitVec 32)} (hs : fr.abs.stack = v :: s) :
    fr.top 1 = v ∧ 1 ≤ fr.stackSize ∧ fr.stackSize ≤ fr.operandStack.length := by
  have := hfr.size_eq; have := hfr.room
  have hl : fr.abs.stack.length = s.length + 1 := by simp [hs]
  exact ⟨by rw [hfr.top_eq (le_refl 1) (by omega), hs]; rfl, by omega, by rw [hfr.length]; omega⟩

/-- The two values on top as the two-operand handlers read them. -/
theorem Fits.top_two (hfr : fr.Fits m) {b a : BitVec 32} {s : List (BitVec 32)} (hs : fr.abs.stack = b :: a :: s) :
    fr.top 1 = b ∧ fr.top 2 = a ∧ 2 ≤ fr.stackSize ∧ fr.stackSize ≤ fr.operandStack.length := by
  have := hfr.size_eq; have := hfr.room
  have hl : fr.abs.stack.length = s.length + 2 := by simp [hs]
  exact ⟨by rw [hfr.top_eq (le_refl 1) (by omega), hs]; rfl, by rw [hfr.top_eq (by omega) (by omega), hs]; rfl,
    by omega, by rw [hfr.length]; omega⟩

/-- A frame over the same buffer with `k` values fewer. -/
theorem Fits.shrink (hfr : fr.Fits m) (fr' : Frame) (ho : fr'.operandStack = fr.operandStack)
    {k : Nat} (hk : k ≤ fr.abs.stack.length) (hs : fr'.stackSize = fr.stackSize - k) :
    fr'.Fits m ∧ fr'.abs.stack = fr.abs.stack.drop k := by
  have := hfr.size_eq; have := hfr.room
  refine ⟨⟨ho ▸ hfr.length, by omega, by omega⟩, ?_⟩
  simp only [Frame.abs, ho, hs, stackOf_drop]
  congr 1
  simp at this
  omega

/-- A frame whose buffer took `v` at `stack_size - k` and whose size became
    `stack_size - k + 1`: `stack_help(operand_stack, stack_size, v, k)`. -/
theorem Fits.write (hfr : fr.Fits m) (fr' : Frame) {k : Nat}
    (ho : fr'.operandStack = fr.operandStack.set (fr.stackSize - k).toNat v) (hk : k ≤ fr.abs.stack.length) (hroom : fr.abs.stack.length - k < m.maxStack)
    (hs : fr'.stackSize = fr.stackSize - k + 1) :
    fr'.Fits m ∧ fr'.abs.stack = v :: fr.abs.stack.drop k := by
  have := hfr.size_eq
  refine ⟨⟨by rw [ho, List.length_set, hfr.length], by omega, by omega⟩, ?_⟩
  have hn : fr'.stackSize.toNat = (fr.stackSize - k).toNat + 1 := by omega
  simp only [Frame.abs, ho, hn]
  rw [stackOf_set_succ (by rw [hfr.length]; omega), stackOf_drop]
  congr 2
  simp at this
  omega

theorem init_fits (m : Method) (locals : List (BitVec 32)) : (Frame.init m locals).Fits m :=
  ⟨List.length_replicate _ _, Int.le_refl 0, Int.ofNat_nonneg _⟩

theorem drop_drop (fr : Frame) (j k : Nat) : (fr.drop j).drop k = fr.drop (j + k) := by
  simp only [Frame.drop, Frame.mk.injEq, and_true, true_and]
  omega

end Frame

theorem FrameRel.of {m : Method} {fr : Frame} {f : Ref.Frame} (hfit : fr.Fits m) (hpc : fr.programCounter = f.pc)
    (hst : fr.abs.stack = f.stack) (hl : fr.locals = f.locals) : FrameRel m fr f := by
  refine ⟨hfit, ?_⟩
  cases f
  simp only [Frame.abs, Ref.Frame.mk.injEq] at hst ⊢
  exact ⟨hpc, hst, hl⟩

/-! ## Heap, log, endings -/

/-- An array as `execute`'s heap holds it: its count in slot 0, then its elements. -/
def Ref.IntArray.slots (a : Ref.IntArray) : List (BitVec 32) := BitVec.ofNat 32 a.elems.length :: a.elems

theorem Ref.IntArray.slots_length (a : Ref.IntArray) : a.slots.length = a.elems.length + 1 := rfl

/-- Slot 0 of an array's slots is its count. -/
theorem Ref.IntArray.readSlot_zero (a : Ref.IntArray) (ub : UB) :
    readSlot a.slots 0 ub = .ok (BitVec.ofNat 32 a.elems.length) :=
  readSlot_ok (Int.le_refl 0) (by rw [slots_length]; omega)

/-- The lines a log prints. -/
def printed (log : List Event) : List (BitVec 32) :=
  log.filterMap fun e => match e with
    | .print v => some v
    | _ => none

/-- `execute`'s heap holds the reference's arrays, and its log prints the reference's lines. -/
def GlobRel (g : Glob) (rg : Ref.Glob) : Prop :=
  g.heap = rg.heap.map Ref.IntArray.slots ∧ printed g.log = rg.out

/-- `execute`'s ending and heap agree with the reference's, unless the reference stopped. -/
def Agrees : Ending × Glob → Ref.Outcome × Ref.Glob → Prop
  | _, (.stopped _, _) => True
  | (.returned v, g), (.returned w, rg) => v = w ∧ GlobRel g rg
  | (.outOfFuel, g), (.outOfFuel, rg) => GlobRel g rg
  | _, _ => False

theorem Agrees.stopped (p : Ending × Glob) (s : Ref.Stop) (rg : Ref.Glob) : Agrees p (.stopped s, rg) := by
  rcases p with ⟨_ | _ | _, _⟩ <;> trivial

/-- What one instruction leaves in `execute` and in the reference agree. -/
def NextRel (m : Method) : Next → Ref.Next → Prop
  | _, .done (.stopped _) _ => True
  | .next fr g, .next f rg => FrameRel m fr f ∧ GlobRel g rg
  | .done e g, .done o rg => Agrees (e, g) (o, rg)
  | _, _ => False

theorem NextRel.stopped {m : Method} (n : Next) (s : Ref.Stop) (rg : Ref.Glob) :
    NextRel m n (.done (.stopped s) rg) := by
  cases n <;> trivial

theorem printed_observe (log : List Event) (op : Opcode) (fr fr' : Frame) :
    printed (log ++ observe op fr fr') = printed log := by
  cases op <;> simp [observe, printed]

/-- The loop's record of an array access prints nothing. -/
theorem NextRel.record {m : Method} {op : Opcode} {fr : Frame} {c : Next} {r : Ref.Next} (h : NextRel m c r) :
    NextRel m (c.record op fr) r := by
  rcases c with ⟨fr', g'⟩ | ⟨e, g'⟩
  · rcases r with ⟨f, rg⟩ | ⟨(_ | _ | _), rg⟩
    · exact ⟨h.1, h.2.1, (printed_observe _ _ _ _).trans h.2.2⟩
    all_goals exact h
  · exact h

theorem NextRel.done_done {m : Method} {e : Ending} {g : Glob} {o : Ref.Outcome} {rg : Ref.Glob}
    (h : NextRel m (.done e g) (.done o rg)) : Agrees (e, g) (o, rg) := by
  cases o
  case stopped s => exact Agrees.stopped _ _ _
  all_goals exact h

/-! ## Following the reference -/

/-- `x`, a computation of `execute`, succeeds wherever `y`, the reference's, does, with
    results related by `R`. -/
def Sim {α β : Type} (R : α → β → Prop) (x : Except Fault α) (y : Except Ref.Stop β) : Prop :=
  ∀ b, y = .ok b → ∃ a, x = .ok a ∧ R a b

section Sim

variable {α β γ δ : Type} {R : α → β → Prop} {S : γ → δ → Prop}

@[simp] theorem sim_error {x : Except Fault α} {s : Ref.Stop} : Sim R x (.error s) := by
  intro b h; cases h

theorem sim_ok {a : α} {b : β} (h : R a b) : Sim R (.ok a) (.ok b) := by
  intro b' hb; cases hb; exact ⟨a, rfl, h⟩

theorem Sim.bind {x : Except Fault α} {y : Except Ref.Stop β} {f : α → Except Fault γ}
    {g : β → Except Ref.Stop δ} (h : Sim R x y) (hf : ∀ a b, R a b → Sim S (f a) (g b)) :
    Sim S (x >>= f) (y >>= g) := by
  intro d hd
  obtain ⟨b, hy, hd⟩ := except_bind_eq_ok.1 hd
  obtain ⟨a, hx, hab⟩ := h b hy
  rw [hx]
  exact hf a b hab d hd

theorem Sim.map {x : Except Fault α} {y : Except Ref.Stop β} {f : α → γ} {g : β → δ} (h : Sim R x y)
    (hf : ∀ a b, R a b → S (f a) (g b)) : Sim S (x.map f) (y.map g) := by
  intro d hd
  obtain ⟨b, hy, rfl⟩ := except_map_eq_ok.1 hd
  obtain ⟨a, hx, hab⟩ := h b hy
  exact ⟨f a, by rw [hx]; rfl, hf a b hab⟩

theorem Sim.map_left {x : Except Fault α} {y : Except Ref.Stop β} {f : α → γ} {S : γ → β → Prop} (h : Sim R x y)
    (hf : ∀ a b, R a b → S (f a) b) : Sim S (x.map f) y := by
  intro b hb
  obtain ⟨a, hx, hab⟩ := h b hb
  exact ⟨f a, by rw [hx]; rfl, hf a b hab⟩

end Sim

theorem sim_byteAt (m : Method) (k : Nat) : Sim Eq (codeAt m k) (Ref.byteAt m k) := by
  intro b h
  rw [Ref.byteAt_eq_ok, List.getElem?_eq_some_iff] at h
  obtain ⟨hk, rfl⟩ := h
  exact ⟨_, codeAt_ok hk, by simp [hk]⟩

theorem sim_intResult (x : Int) : Sim Eq (intResult x) (Ref.int32 x) := by
  intro v h
  obtain ⟨hx, rfl⟩ := Ref.int32_eq_ok.1 h
  exact ⟨_, intResult_of_inRange hx, rfl⟩

section Frames

variable {m : Method} {fr : Frame} {f : Ref.Frame} {g : Glob} {rg : Ref.Glob}

/-- A handler that goes on to the next instruction, `w` bytes on. -/
theorem sim_go {x : Except Fault Frame} {y : Except Ref.Stop Ref.Frame} (h : Sim (FrameRel m) x y)
    (hg : GlobRel g rg) (w : Nat) :
    Sim (NextRel m) (x.map fun fr => .next (fr.advance w) g) (y.map fun f => .next (f.advance w) rg) :=
  h.map fun _ _ ⟨hfr, he⟩ => ⟨⟨hfr.advance w, by rw [Frame.abs_advance, he]⟩, hg⟩

theorem sim_push (h : FrameRel m fr f) {v v' : BitVec 32} (hv : v = v') :
    Sim (FrameRel m) (fr.push v) (f.push m v') := by
  intro f' hf'
  obtain ⟨hl, rfl⟩ := Ref.Frame.push_eq_ok.1 hf'
  obtain ⟨hfr, rfl⟩ := h
  subst hv
  have := hfr.size_eq
  obtain ⟨hfit, hst⟩ := hfr.write (k := 0) { fr.setTop 0 v with stackSize := fr.stackSize + 1 } rfl
    (Nat.zero_le _) (by omega) (by simp)
  exact ⟨_, push_ok hfr.nonneg (by rw [hfr.length]; omega), FrameRel.of hfit rfl (by simpa using hst) rfl⟩

theorem sim_slot (h : fr.locals = f.locals) (i : Nat) : Sim Eq (readSlot fr.locals i .locals) (f.slot i) := by
  intro v hv
  rw [Ref.Frame.slot_eq_ok, List.getElem?_eq_some_iff] at hv
  obtain ⟨hi, rfl⟩ := hv
  exact ⟨_, readSlot_nat (h ▸ hi), by simp [h, hi]⟩

theorem sim_setSlot (h : fr.locals = f.locals) (i : Nat) (v : BitVec 32) :
    Sim Eq (writeSlot fr.locals i v .locals) (f.setSlot i v) := by
  intro l hl
  obtain ⟨hi, rfl⟩ := Ref.Frame.setSlot_eq_ok.1 hl
  exact ⟨_, writeSlot_nat (h ▸ hi), by rw [h]⟩

theorem sim_load (h : FrameRel m fr f) {i i' : Nat} (hi : i = i') :
    Sim (FrameRel m) (loadLocal fr i) (f.load m i') :=
  hi ▸ (sim_slot (h.2 ▸ rfl) i).bind fun _ _ hv => sim_push h hv

theorem sim_store (h : FrameRel m fr f) {i i' : Nat} (hi : i = i') :
    Sim (FrameRel m) (storeLocal fr i) (f.store i') := by
  subst hi
  obtain ⟨hfr, rfl⟩ := h
  intro f' hf'
  rcases hs : fr.abs.stack with _ | ⟨v, s⟩
  · simp [Ref.Frame.store, Ref.Frame.pop_of_nil hs] at hf'
  · simp only [Ref.Frame.store, Ref.Frame.pop_of_cons hs, ok_bind, except_bind_eq_ok, pure_eq_ok_iff] at hf'
    obtain ⟨l, hl, rfl⟩ := hf'
    obtain ⟨hi, rfl⟩ := Ref.Frame.setSlot_eq_ok.1 hl
    obtain ⟨ht, h1, h2⟩ := hfr.top_one hs
    obtain ⟨hfit, hst⟩ := hfr.shrink { fr with locals := fr.locals.set i v, stackSize := fr.stackSize - 1 }
      rfl (k := 1) (by simp [hs]) rfl
    refine ⟨_, ?_, FrameRel.of hfit rfl (by rw [hst, hs]; rfl) rfl⟩
    rw [storeLocal_ok h1 h2, ht, writeSlot_nat (show i < fr.locals.length from hi)]
    rfl

end Frames

end Cs24.Jvm
