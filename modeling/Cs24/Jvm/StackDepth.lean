/-
  Cs24.Jvm.StackDepth — the operand stack stays inside its `calloc`'d buffer.

  `execute` trusts the bytecode: nothing checks `stack_size` against `max_stack` or 0.
  A method is well-typed for the stack when it has a depth map `d` for an effect table:
  `d 0 = 0`, and at each instruction reachable from pc 0 the depth covers what the
  instruction pops and every successor's depth is what it leaves, at most `max_stack`
  (`DepthMap`); its returns agree with its descriptor (`ReturnsMatch`). `effect` and
  `successors` are read off the handlers in `exec`: `dup` reads the top and leaves two,
  `ineg`, `newarray` and `arraylength` read one and leave one, `ireturn` and `areturn`
  read one, `invokestatic` reads its callee's parameters and leaves one slot iff the
  callee's descriptor is not void, a byte no case matches is its own successor. The
  spec's table (`statedEffect`) lists `dup` as popping nothing.

  Proved, when every method of the class has such a map:
  - `exec_depth`: one handler, given the depth its effect needs, touches only slots
    inside the buffer and leaves the depth `effect` says at a successor.
  - `run_depth`: no run of `execute`, at any depth of `invokestatic`, indexes
    `operand_stack` outside `[0, max_stack)`, and a method returns a value exactly
    when its descriptor is not void.
  - `stack_depth_invariant`: every state an invocation reaches at pc has
    `stack_size = d pc`, and no run indexes the stack outside its buffer.
  - `dupReturn_underruns`: with the spec's table instead of `effect` this fails; `dup; return`
    has a depth map for it and still reads `operand_stack[-1]`.
-/

import Cs24.Jvm.Execute

namespace Cs24.Jvm

/-- The case label `execute` dispatches on at `pc`. -/
def decodeAt (m : Method) (pc : Nat) : Option Opcode := Opcode.ofByte (m.code.getD pc 0)

/-- The method an `invokestatic` at `pc` calls. -/
def calleeAt (cls : ClassFile) (m : Method) (pc : Nat) : Option Method :=
  match codeAt m (pc + 1), codeAt m (pc + 2) with
  | .ok b1, .ok b2 => findMethodFromIndex (b1.toNat * 256 + b2.toNat) cls
  | _, _ => none

/-- How many slots below the top the handler at `pc` reads, and how many it leaves. -/
def effect (cls : ClassFile) (m : Method) (pc : Nat) : Opcode → Nat × Nat
  | .nop | .getstatic | .goto | .iinc | .return_ => (0, 0)
  | .iconst_m1 | .iconst_0 | .iconst_1 | .iconst_2 | .iconst_3 | .iconst_4 | .iconst_5
  | .bipush | .sipush | .ldc | .iload | .aload | .iload_0 | .iload_1 | .iload_2 | .iload_3
  | .aload_0 | .aload_1 | .aload_2 | .aload_3 => (0, 1)
  | .dup => (1, 2)
  | .iadd | .isub | .imul | .idiv | .irem | .ishl | .ishr | .iushr | .iand | .ior | .ixor
  | .iaload => (2, 1)
  | .ineg | .newarray | .arraylength => (1, 1)
  | .istore | .astore | .istore_0 | .istore_1 | .istore_2 | .istore_3
  | .astore_0 | .astore_1 | .astore_2 | .astore_3 | .invokevirtual
  | .ifeq | .ifne | .iflt | .ifge | .ifgt | .ifle | .ireturn | .areturn => (1, 0)
  | .if_icmpeq | .if_icmpne | .if_icmplt | .if_icmpge | .if_icmpgt | .if_icmple => (2, 0)
  | .iastore => (3, 0)
  | .invokestatic =>
    match calleeAt cls m pc with
    | some c => (c.parameters, if c.returnsValue then 1 else 0)
    | none => (0, 0)

/-- How far a handler that does not branch moves the program counter. -/
def Opcode.width : Opcode → Nat
  | .bipush | .ldc | .iload | .aload | .istore | .astore | .newarray => 2
  | .sipush | .iinc | .getstatic | .invokevirtual | .invokestatic => 3
  | _ => 1

/-- The program counters a pass at `pc` can go on at. -/
def successors (m : Method) (pc : Nat) : Option Opcode → List Nat
  | none => [pc]
  | some .return_ | some .ireturn | some .areturn => []
  | some .goto => match branchTarget m pc with
    | .ok t => [t]
    | .error _ => []
  | some .ifeq | some .ifne | some .iflt | some .ifge | some .ifgt | some .ifle
  | some .if_icmpeq | some .if_icmpne | some .if_icmplt | some .if_icmpge | some .if_icmpgt
  | some .if_icmple => match branchTarget m pc with
    | .ok t => [pc + 3, t]
    | .error _ => [pc + 3]
  | some op => [pc + op.width]

/-- The program counters reachable from 0. -/
inductive CfgReach (m : Method) : Nat → Prop
  | entry : CfgReach m 0
  | next {pc pc' : Nat} : CfgReach m pc → pc < m.code.length →
      pc' ∈ successors m pc (decodeAt m pc) → CfgReach m pc'

/-- `d` gives the operand-stack depth at every reachable program counter, for the effect
    table `eff` (`(pops, pushes)` of the instruction at a program counter). -/
structure DepthMap (eff : Nat → Opcode → Nat × Nat) (m : Method) (d : Nat → Nat) : Prop where
  entry : d 0 = 0
  reads : ∀ pc op, CfgReach m pc → pc < m.code.length → decodeAt m pc = some op → (eff pc op).1 ≤ d pc
  succ : ∀ pc op pc', CfgReach m pc → pc < m.code.length → decodeAt m pc = some op →
    pc' ∈ successors m pc (some op) → d pc' = d pc - (eff pc op).1 + (eff pc op).2 ∧ d pc' ≤ m.maxStack

/-- Modelled from the spec: its effect table, which lists `dup` among the instructions that
    push one and pop none; every other count is `effect`'s. -/
def statedEffect (cls : ClassFile) (m : Method) (pc : Nat) : Opcode → Nat × Nat
  | .dup => (0, 1)
  | op => effect cls m pc op

/-- A void method returns only by `return` or by running off its code; any other only by
    `ireturn` or `areturn`. -/
def ReturnsMatch (m : Method) : Prop :=
  ∀ pc, CfgReach m pc →
    (m.code.length ≤ pc → m.returnsValue = false) ∧
    (pc < m.code.length → decodeAt m pc = some .return_ → m.returnsValue = false) ∧
    (pc < m.code.length → (decodeAt m pc = some .ireturn ∨ decodeAt m pc = some .areturn) →
      m.returnsValue = true)

/-- A fault other than an operand-stack index outside the buffer. -/
def NotStack (f : Fault) : Prop := f ≠ .undefined .operandStack

/-- What a run of a callee may end with: never an operand-stack fault, and a value exactly
    when the callee's descriptor is not void. -/
def SafeEnding (meth : Method) (e : Ending) : Prop :=
  e ≠ .fault (.undefined .operandStack) ∧ ∀ v, e = .returned v → v.isSome = meth.returnsValue

/-- What one handler leaves, given the effect `(pops, pushes)`. -/
def EffectPost (m : Method) (fr : Frame) (op : Opcode) (pops pushes : Nat) : Next → Prop
  | .next fr' _ => fr'.programCounter ∈ successors m fr.programCounter (some op) ∧
    fr'.stackSize = fr.stackSize - pops + pushes ∧ fr'.operandStack.length = fr.operandStack.length
  | .done e _ => e ≠ .fault (.undefined .operandStack) ∧ ∀ v, e = .returned v →
    (op = .return_ ∧ v = none) ∨ ((op = .ireturn ∨ op = .areturn) ∧ v.isSome)

/-! ## Faults that are not operand-stack faults -/

/-- `x` never ends in an operand-stack fault. -/
def StackFree {α : Type} (x : Except Fault α) : Prop := ∀ e, x = .error e → NotStack e

theorem wp_of_stackFree {α : Type} {x : Except Fault α} {post : α → Prop} (hx : StackFree x) :
    Wp x post NotStack ↔ ∀ v, x = .ok v → post v := by
  cases x with
  | ok a => simp
  | error e => simpa using hx e rfl

theorem stackFree_ite {α : Type} {c : Prop} [Decidable c] {x y : Except Fault α} (hx : StackFree x)
    (hy : StackFree y) : StackFree (if c then x else y) := by
  split <;> assumption

theorem stackFree_bind {α β : Type} {x : Except Fault α} {f : α → Except Fault β} (hx : StackFree x)
    (hf : ∀ a, StackFree (f a)) : StackFree (x >>= f) := by
  cases x with
  | ok a => exact hf a
  | error e => intro e' h; cases h; exact hx e rfl

@[simp] theorem stackFree_ok {α : Type} (a : α) : StackFree (.ok a : Except Fault α) := by
  intro e h; cases h

theorem stackFree_error {α : Type} {e : Fault} (h : NotStack e) : StackFree (.error e : Except Fault α) := by
  intro e' h'; cases h'; exact h

@[simp] theorem stackFree_codeAt (m : Method) (k : Nat) : StackFree (codeAt m k) :=
  stackFree_ite (stackFree_ok _) (stackFree_error (by simp [NotStack]))

@[simp] theorem stackFree_intResult (x : Int) : StackFree (intResult x) :=
  stackFree_ite (stackFree_ok _) (stackFree_error (by simp [NotStack]))

@[simp] theorem stackFree_assertThat (c : Prop) [Decidable c] : StackFree (assertThat c) :=
  stackFree_ite (stackFree_ok _) (stackFree_error (by simp [NotStack]))

@[simp] theorem stackFree_readSlot {a : List (BitVec 32)} {i : Int} {ub : UB}
    (h : ub ≠ .operandStack) : StackFree (readSlot a i ub) :=
  stackFree_ite (stackFree_ok _) (stackFree_error (by simpa [NotStack] using h))

@[simp] theorem stackFree_writeSlot {a : List (BitVec 32)} {i : Int} {v : BitVec 32} {ub : UB}
    (h : ub ≠ .operandStack) : StackFree (writeSlot a i v ub) :=
  stackFree_ite (stackFree_ok _) (stackFree_error (by simpa [NotStack] using h))

@[simp] theorem stackFree_integerConstant (cls : ClassFile) (b : Nat) :
    StackFree (integerConstant cls b) := by
  unfold integerConstant
  split
  · exact stackFree_error (by simp [NotStack])
  · split
    · exact stackFree_ok _
    · exact stackFree_error (by simp [NotStack])

@[simp] theorem stackFree_heapGet (heap : List (List (BitVec 32))) (ref : BitVec 32) :
    StackFree (heapGet heap ref) := by
  unfold heapGet
  split
  · split
    · exact stackFree_ok _
    · exact stackFree_error (by simp [NotStack])
  · exact stackFree_error (by simp [NotStack])

@[simp] theorem stackFree_branchTarget (m : Method) (pc : Nat) : StackFree (branchTarget m pc) :=
  stackFree_bind (stackFree_codeAt _ _) fun _ => stackFree_bind (stackFree_codeAt _ _) fun _ => stackFree_ok _

@[simp] theorem stackFree_cAdd (a b : BitVec 32) : StackFree (cAdd a b) := stackFree_intResult _
@[simp] theorem stackFree_cSub (a b : BitVec 32) : StackFree (cSub a b) := stackFree_intResult _
@[simp] theorem stackFree_cMul (a b : BitVec 32) : StackFree (cMul a b) := stackFree_intResult _

@[simp] theorem stackFree_cDiv (a b : BitVec 32) : StackFree (cDiv a b) :=
  stackFree_ite (stackFree_error (by simp [NotStack])) (stackFree_intResult _)

@[simp] theorem stackFree_cRem (a b : BitVec 32) : StackFree (cRem a b) :=
  stackFree_bind (stackFree_cDiv a b) fun _ => stackFree_intResult _

@[simp] theorem stackFree_cShl (a b : BitVec 32) : StackFree (cShl a b) :=
  stackFree_ite (stackFree_intResult _) (stackFree_error (by simp [NotStack]))

@[simp] theorem stackFree_cShr (a b : BitVec 32) : StackFree (cShr a b) :=
  stackFree_ite (stackFree_ok _) (stackFree_error (by simp [NotStack]))

@[simp] theorem stackFree_cUshr (a b : BitVec 32) : StackFree (cUshr a b) :=
  stackFree_ite (stackFree_ok _) (stackFree_error (by simp [NotStack]))

/-! ## One handler

Every handler has one of a few shapes, and each shape moves the depth once (`Shifts`):
`stack_help` puts one slot in place of `k`, a push adds one, a store to a local removes
one. A handler that goes on `w` bytes is its shape, then `advance w` (`wp_go`); a
conditional branch goes on at its target or 3 bytes further (`branchPc_mem`). The handlers
that reach the heap, print, call or return are taken one at a time. -/

/-- The depth `fr` has room for `op`'s effect: what it reads is on the stack, and what it
    leaves fits the buffer. -/
structure Room (cls : ClassFile) (m : Method) (fr : Frame) (op : Opcode) : Prop where
  pops : ((effect cls m fr.programCounter op).1 : Int) ≤ fr.stackSize
  fits : fr.stackSize ≤ fr.operandStack.length
  room : fr.stackSize - (effect cls m fr.programCounter op).1 + (effect cls m fr.programCounter op).2 ≤
    fr.operandStack.length

theorem Room.bounds {cls : ClassFile} {m : Method} {fr : Frame} {op : Opcode} {a b : Nat} (h : Room cls m fr op)
    (he : effect cls m fr.programCounter op = (a, b)) :
    (a : Int) ≤ fr.stackSize ∧ fr.stackSize ≤ fr.operandStack.length ∧ fr.stackSize - a + b ≤ fr.operandStack.length := by
  have h1 := h.pops
  have h3 := h.room
  rw [he] at h1 h3
  exact ⟨h1, h.fits, h3⟩

/-- `fr'` keeps the program counter and buffer of `fr`, its depth `pops` lower, then `pushes`
    higher. -/
def Shifts (fr : Frame) (pops pushes : Nat) (fr' : Frame) : Prop :=
  fr'.programCounter = fr.programCounter ∧ fr'.stackSize = fr.stackSize - pops + pushes ∧
    fr'.operandStack.length = fr.operandStack.length

theorem branchTarget_ok_or (m : Method) (pc : Nat) :
    (∃ t, branchTarget m pc = .ok t) ∨ branchTarget m pc = .error (.undefined .code) := by
  unfold branchTarget codeAt
  split_ifs <;> first | exact .inl ⟨_, rfl⟩ | exact .inr rfl

/-- The parameter loop pops `n` slots and faults only on the callee's locals. -/
theorem popParameters_depth (n : Nat) (lq : List (BitVec 32)) (fr : Frame) (h1 : (n : Int) ≤ fr.stackSize)
    (h2 : fr.stackSize ≤ fr.operandStack.length) :
    Wp (popParameters n lq fr) (fun r => Shifts fr n 0 r.2) NotStack := by
  induction n generalizing lq fr with
  | zero => simp [popParameters, Shifts]
  | succ n ih =>
    simp only [popParameters, peek_ok (k := 1) (by omega) (by omega) h2, ok_bind, wp_bind,
      wp_of_stackFree (stackFree_writeSlot (show UB.locals ≠ .operandStack by decide))]
    intro lq' _
    refine (ih lq' (fr.drop 1) (by simp; omega) (by simp; omega)).imp ?_ fun _ h => h
    intro r ⟨hpc, hss, hl⟩
    simp only [drop_programCounter, drop_operandStack, drop_stackSize] at hpc hss hl
    exact ⟨hpc, by omega, hl⟩

section Shapes

variable {m : Method} {fr : Frame} {v : BitVec 32} {g : Glob} {op : Opcode}

theorem stackHelp_shifts {k : Nat} (h1 : k ≤ fr.stackSize) (h2 : fr.stackSize - k < fr.operandStack.length) :
    Wp (stackHelp fr v k) (Shifts fr k 1) NotStack := by
  rw [stackHelp_ok h1 h2]
  simp [Shifts, Frame.setTop]

theorem push_shifts (h1 : 0 ≤ fr.stackSize) (h2 : fr.stackSize < fr.operandStack.length) :
    Wp (fr.push v) (Shifts fr 0 1) NotStack :=
  stackHelp_shifts (by simpa using h1) (by simpa using h2)

theorem loadLocal_shifts {i : Nat} (h1 : 0 ≤ fr.stackSize) (h2 : fr.stackSize < fr.operandStack.length) :
    Wp (loadLocal fr i) (Shifts fr 0 1) NotStack := by
  simp only [loadLocal, wp_bind, wp_of_stackFree (stackFree_readSlot (show UB.locals ≠ .operandStack by decide))]
  exact fun _ _ => push_shifts h1 h2

theorem storeLocal_shifts {i : Nat} (h1 : 1 ≤ fr.stackSize) (h2 : fr.stackSize ≤ fr.operandStack.length) :
    Wp (storeLocal fr i) (Shifts fr 1 0) NotStack := by
  rw [storeLocal_ok h1 h2, wp_map, wp_of_stackFree (stackFree_writeSlot (by decide))]
  intro _ _
  simp [Shifts]

theorem binaryOp_shifts {f : BitVec 32 → BitVec 32 → Except Fault (BitVec 32)} (hf : ∀ a b, StackFree (f a b))
    (h1 : 2 ≤ fr.stackSize) (h2 : fr.stackSize ≤ fr.operandStack.length) :
    Wp (binaryOp f fr) (Shifts fr 2 1) NotStack := by
  simp only [binaryOp, peek_ok (k := 2) (by omega) h1 h2, peek_ok (k := 1) (by omega) (by omega) h2, ok_bind,
    wp_bind, wp_of_stackFree (hf _ _)]
  exact fun _ _ => stackHelp_shifts (by omega) (by omega)

/-- A pass that goes on `w` bytes past a frame `Shifts` relates to `fr`. -/
theorem effectPost_next {fr' : Frame} {w pops pushes : Nat}
    (hs : fr.programCounter + w ∈ successors m fr.programCounter (some op)) (h : Shifts fr pops pushes fr') :
    EffectPost m fr op pops pushes (.next (fr'.advance w) g) :=
  ⟨by rwa [advance_programCounter, h.1], h.2.1, h.2.2⟩

/-- A handler `go w x`: the loop goes on `w` bytes past what `x` leaves. -/
theorem wp_go {x : Except Fault Frame} {w pops pushes : Nat}
    (hs : fr.programCounter + w ∈ successors m fr.programCounter (some op)) (hx : Wp x (Shifts fr pops pushes) NotStack) :
    Wp (x.map fun fr' => Next.next (fr'.advance w) g) (EffectPost m fr op pops pushes) NotStack := by
  rw [wp_map]
  exact hx.imp (fun _ h => effectPost_next hs h) fun _ h => h

/-- A conditional branch goes on at its target or 3 bytes further. -/
theorem branchPc_mem (c : Bool) :
    Wp (if c then branchTarget m fr.programCounter else .ok (fr.programCounter + 3))
      (fun pc => pc ∈ (match branchTarget m fr.programCounter with
        | .ok t => [fr.programCounter + 3, t]
        | .error _ => [fr.programCounter + 3])) NotStack := by
  obtain ⟨t, hb⟩ | hb := branchTarget_ok_or m fr.programCounter <;> cases c <;> simp [hb, NotStack]

end Shapes

section Handler

variable {cls : ClassFile} {callee : Method → List (BitVec 32) → Glob → Ending × Glob} {m : Method}
  {fr : Frame} {g : Glob} {op : Opcode}

theorem calleeAt_eq {b1 b2 : UInt8} (h1 : codeAt m (fr.programCounter + 1) = .ok b1)
    (h2 : codeAt m (fr.programCounter + 2) = .ok b2) :
    calleeAt cls m fr.programCounter = findMethodFromIndex (b1.toNat * 256 + b2.toNat) cls := by
  simp [calleeAt, h1, h2]

/-- The constants and the loads of a numbered local push one slot. -/
theorem exec_depth_push (hop : op ∈ [.iconst_m1, .iconst_0, .iconst_1, .iconst_2, .iconst_3, .iconst_4,
      .iconst_5, .iload_0, .iload_1, .iload_2, .iload_3, .aload_0, .aload_1, .aload_2, .aload_3])
    (h1 : 0 ≤ fr.stackSize) (h2 : fr.stackSize < fr.operandStack.length) :
    Wp (exec cls callee m fr g op) (EffectPost m fr op 0 1) NotStack := by
  have hpush : ∀ v, Wp (fr.push v) (Shifts fr 0 1) NotStack := fun _ => push_shifts h1 h2
  have hload : ∀ i, Wp (loadLocal fr i) (Shifts fr 0 1) NotStack := fun _ => loadLocal_shifts h1 h2
  simp only [List.mem_cons, List.mem_nil_iff, or_false] at hop
  rcases hop with rfl | rfl | rfl | rfl | rfl | rfl | rfl | rfl | rfl | rfl | rfl | rfl | rfl | rfl | rfl <;>
    first | exact wp_go (List.mem_singleton_self _) (hpush _) | exact wp_go (List.mem_singleton_self _) (hload _)

/-- `bipush`, `sipush`, `ldc`, `iload` and `aload` read their immediate bytes, then push one
    slot. -/
theorem exec_depth_immediate (hop : op ∈ [.bipush, .sipush, .ldc, .iload, .aload]) (h1 : 0 ≤ fr.stackSize)
    (h2 : fr.stackSize < fr.operandStack.length) :
    Wp (exec cls callee m fr g op) (EffectPost m fr op 0 1) NotStack := by
  have hpush : ∀ v, Wp (fr.push v) (Shifts fr 0 1) NotStack := fun _ => push_shifts h1 h2
  have hload : ∀ i, Wp (loadLocal fr i) (Shifts fr 0 1) NotStack := fun _ => loadLocal_shifts h1 h2
  simp only [List.mem_cons, List.mem_nil_iff, or_false] at hop
  rcases hop with rfl | rfl | rfl | rfl | rfl <;>
    simp only [exec.eq_def, wp_bind, wp_of_stackFree, stackFree_codeAt, stackFree_integerConstant] <;>
    intros <;> first | exact wp_go (List.mem_singleton_self _) (hpush _) | exact wp_go (List.mem_singleton_self _) (hload _)

/-- The stores to a local pop one slot. -/
theorem exec_depth_store (hop : op ∈ [.istore, .astore, .istore_0, .istore_1, .istore_2, .istore_3,
      .astore_0, .astore_1, .astore_2, .astore_3]) (h1 : 1 ≤ fr.stackSize) (h2 : fr.stackSize ≤ fr.operandStack.length) :
    Wp (exec cls callee m fr g op) (EffectPost m fr op 1 0) NotStack := by
  have hstore : ∀ i, Wp (storeLocal fr i) (Shifts fr 1 0) NotStack := fun _ => storeLocal_shifts h1 h2
  simp only [List.mem_cons, List.mem_nil_iff, or_false] at hop
  rcases hop with rfl | rfl | rfl | rfl | rfl | rfl | rfl | rfl | rfl | rfl <;>
    simp only [exec.eq_def, wp_bind, wp_of_stackFree, stackFree_codeAt] <;>
    intros <;> exact wp_go (List.mem_singleton_self _) (hstore _)

/-- The two-operand instructions put one result in place of their two operands, after the
    checks on the top (`b ≠ 0`, a non-negative shift count). -/
theorem exec_depth_binop (hop : op ∈ [.iadd, .isub, .imul, .idiv, .irem, .ishl, .ishr, .iushr, .iand, .ior, .ixor])
    (h1 : 2 ≤ fr.stackSize) (h2 : fr.stackSize ≤ fr.operandStack.length) :
    Wp (exec cls callee m fr g op) (EffectPost m fr op 2 1) NotStack := by
  have hbin : ∀ f : BitVec 32 → BitVec 32 → Except Fault (BitVec 32), (∀ a b, StackFree (f a b)) →
      Wp (binaryOp f fr) (Shifts fr 2 1) NotStack := fun _ hf => binaryOp_shifts hf h1 h2
  simp only [List.mem_cons, List.mem_nil_iff, or_false] at hop
  rcases hop with rfl | rfl | rfl | rfl | rfl | rfl | rfl | rfl | rfl | rfl | rfl <;>
    simp only [exec.eq_def] <;> refine wp_go (List.mem_singleton_self _) ?_ <;>
    first
    | exact hbin _ (by simp)
    | (simp only [peek_ok (k := 1) (by omega) (by omega) h2, peek_ok (k := 2) (by omega) h1 h2, ok_bind, wp_bind,
        wp_of_stackFree, stackFree_cAdd, stackFree_assertThat]
       intros
       first | exact hbin _ (by simp) | exact stackHelp_shifts (by omega) (by omega))

/-- `dup` pushes the top again. -/
theorem exec_depth_dup (h1 : 1 ≤ fr.stackSize) (h2 : fr.stackSize < fr.operandStack.length) :
    Wp (exec cls callee m fr g .dup) (EffectPost m fr .dup 1 2) NotStack := by
  simp only [exec.eq_def, peek_ok (k := 1) (by omega) h1 (by omega), ok_bind]
  exact wp_go (List.mem_singleton_self _)
    ((push_shifts (by omega) h2).imp (fun _ ⟨hpc, hs, hl⟩ => ⟨hpc, by omega, hl⟩) fun _ h => h)

/-- `ineg` rewrites the top in place. -/
theorem exec_depth_ineg (h1 : 1 ≤ fr.stackSize) (h2 : fr.stackSize ≤ fr.operandStack.length) :
    Wp (exec cls callee m fr g .ineg) (EffectPost m fr .ineg 1 1) NotStack := by
  simp only [exec.eq_def, peek_ok (k := 1) (by omega) h1 h2, ok_bind]
  refine wp_go (List.mem_singleton_self _) ?_
  simp only [wp_bind, wp_of_stackFree, stackFree_cMul, poke_ok (k := 1) h1 (by omega)]
  intro _ _
  simp [Shifts, Frame.setTop]

theorem exec_depth_goto : Wp (exec cls callee m fr g .goto) (EffectPost m fr .goto 0 0) NotStack := by
  simp only [exec.eq_def, wp_bind, wp_of_stackFree, stackFree_branchTarget]
  intro t ht
  refine ⟨?_, by simp, rfl⟩
  show t ∈ (match branchTarget m fr.programCounter with | .ok t => [t] | .error _ => [])
  rw [ht]
  exact List.mem_singleton_self t

/-- A one-operand branch pops its operand and goes on at its target or 3 bytes further. -/
theorem exec_depth_if (hop : op ∈ [.ifeq, .ifne, .iflt, .ifge, .ifgt, .ifle]) (h1 : 1 ≤ fr.stackSize)
    (h2 : fr.stackSize ≤ fr.operandStack.length) :
    Wp (exec cls callee m fr g op) (EffectPost m fr op 1 0) NotStack := by
  simp only [List.mem_cons, List.mem_nil_iff, or_false] at hop
  rcases hop with rfl | rfl | rfl | rfl | rfl | rfl <;>
  · simp only [exec.eq_def, ifCond_ok h1 h2, map_map_except, wp_map]
    exact (branchPc_mem _).imp (fun _ hpc => ⟨hpc, by simp, rfl⟩) fun _ h => h

/-- A two-operand branch pops both operands and goes on at its target or 3 bytes further. -/
theorem exec_depth_ifCmp (hop : op ∈ [.if_icmpeq, .if_icmpne, .if_icmplt, .if_icmpge, .if_icmpgt, .if_icmple])
    (h1 : 2 ≤ fr.stackSize) (h2 : fr.stackSize ≤ fr.operandStack.length) :
    Wp (exec cls callee m fr g op) (EffectPost m fr op 2 0) NotStack := by
  simp only [List.mem_cons, List.mem_nil_iff, or_false] at hop
  rcases hop with rfl | rfl | rfl | rfl | rfl | rfl <;>
  · simp only [exec.eq_def, ifCmp_ok h1 h2, map_map_except, wp_map]
    exact (branchPc_mem _).imp (fun _ hpc => ⟨hpc, by simp, rfl⟩) fun _ h => h

/-- `nop`, `getstatic`, `iinc` and `return` leave the stack alone. -/
theorem exec_depth_still (hop : op ∈ [.nop, .getstatic, .iinc, .return_]) :
    Wp (exec cls callee m fr g op) (EffectPost m fr op 0 0) NotStack := by
  simp only [List.mem_cons, List.mem_nil_iff, or_false] at hop
  rcases hop with rfl | rfl | rfl | rfl
  case inr.inr.inr => simp [exec.eq_def, EffectPost]
  all_goals
    simp only [exec.eq_def, wp_pure, wp_bind, wp_of_stackFree, stackFree_codeAt, stackFree_intResult,
      stackFree_readSlot (show UB.locals ≠ .operandStack by decide),
      stackFree_writeSlot (show UB.locals ≠ .operandStack by decide)]
    intros
    exact effectPost_next (List.mem_singleton_self _) ⟨rfl, by simp, rfl⟩

/-- `invokevirtual` prints the top and pops it; `ireturn` and `areturn` return it. -/
theorem exec_depth_top (hop : op ∈ [.invokevirtual, .ireturn, .areturn]) (h1 : 1 ≤ fr.stackSize)
    (h2 : fr.stackSize ≤ fr.operandStack.length) :
    Wp (exec cls callee m fr g op) (EffectPost m fr op 1 0) NotStack := by
  simp only [List.mem_cons, List.mem_nil_iff, or_false] at hop
  rcases hop with rfl | rfl | rfl
  · simp only [exec.eq_def, peek_ok (k := 1) (by omega) h1 h2, ok_bind, wp_pure]
    exact effectPost_next (List.mem_singleton_self _) ⟨rfl, by simp, rfl⟩
  all_goals simp [exec.eq_def, peek_ok (k := 1) (by omega) h1 h2, EffectPost]

theorem exec_depth_newarray (h1 : 1 ≤ fr.stackSize) (h2 : fr.stackSize ≤ fr.operandStack.length) :
    Wp (exec cls callee m fr g .newarray) (EffectPost m fr .newarray 1 1) NotStack := by
  simp only [exec.eq_def, newarray, heapAdd, peek_ok (k := 1) (by omega) h1 h2, poke_ok (k := 1) h1 (by omega),
    ok_bind, wp_bind, wp_pure, wp_of_stackFree, stackFree_cAdd, stackFree_assertThat]
  intros
  exact effectPost_next (List.mem_singleton_self _) ⟨rfl, by simp [Frame.setTop], by simp [Frame.setTop]⟩

theorem exec_depth_arraylength (h1 : 1 ≤ fr.stackSize) (h2 : fr.stackSize ≤ fr.operandStack.length) :
    Wp (exec cls callee m fr g .arraylength) (EffectPost m fr .arraylength 1 1) NotStack := by
  simp only [exec.eq_def, arraylength, peek_ok (k := 1) (by omega) h1 h2, poke_ok (k := 1) h1 (by omega), ok_bind,
    wp_bind, wp_pure, wp_of_stackFree, stackFree_heapGet, stackFree_readSlot (show UB.heap ≠ .operandStack by decide)]
  intros
  exact effectPost_next (List.mem_singleton_self _) ⟨rfl, by simp [Frame.setTop], by simp [Frame.setTop]⟩

theorem exec_depth_iastore (h1 : 3 ≤ fr.stackSize) (h2 : fr.stackSize ≤ fr.operandStack.length) :
    Wp (exec cls callee m fr g .iastore) (EffectPost m fr .iastore 3 0) NotStack := by
  simp only [exec.eq_def, iastore, peek_ok (k := 1) (by omega) (by omega) h2, peek_ok (k := 2) (by omega) (by omega) h2,
    peek_ok (k := 3) (by omega) h1 h2, ok_bind, wp_bind, wp_pure, wp_of_stackFree, stackFree_heapGet, stackFree_cAdd,
    stackFree_writeSlot (show UB.heap ≠ .operandStack by decide)]
  intros
  exact effectPost_next (List.mem_singleton_self _) ⟨rfl, by simp, rfl⟩

theorem exec_depth_iaload (h1 : 2 ≤ fr.stackSize) (h2 : fr.stackSize ≤ fr.operandStack.length) :
    Wp (exec cls callee m fr g .iaload) (EffectPost m fr .iaload 2 1) NotStack := by
  simp only [exec.eq_def, iaload, peek_ok (k := 1) (by omega) (by omega) h2, peek_ok (k := 2) (by omega) h1 h2,
    ok_bind, wp_bind, wp_of_stackFree, stackFree_heapGet, stackFree_cAdd,
    stackFree_readSlot (show UB.heap ≠ .operandStack by decide)]
  intros
  rw [push_ok (by simp; omega) (by simp; omega), wp_ok, wp_pure]
  exact effectPost_next (List.mem_singleton_self _) ⟨rfl, by simp, by simp [Frame.setTop]⟩

theorem exec_depth_invokestatic
    (hcallee : ∀ meth ∈ cls.methods, ∀ lq g, SafeEnding meth (callee meth lq g).1)
    (h : Room cls m fr .invokestatic) :
    Wp (exec cls callee m fr g .invokestatic)
      (EffectPost m fr .invokestatic (effect cls m fr.programCounter .invokestatic).1
        (effect cls m fr.programCounter .invokestatic).2) NotStack := by
  obtain ⟨h1, h2, h3⟩ := h
  simp only [exec.eq_def, invokestatic, wp_bind, wp_of_stackFree (stackFree_codeAt _ _)]
  intro b1 hb1 b2 hb2
  simp only [effect.eq_def, calleeAt_eq hb1 hb2] at h1 h3 ⊢
  cases hf : findMethodFromIndex (b1.toNat * 256 + b2.toNat) cls with
  | none => simp [NotStack]
  | some meth =>
    simp only [hf, wp_bind] at h1 h3 ⊢
    refine (popParameters_depth _ _ fr h1 h2).imp ?_ fun _ h => h
    rintro ⟨lq, fr'⟩ ⟨hpc, hss, hl⟩
    dsimp only at hpc hss hl
    obtain ⟨hne, hret⟩ := hcallee meth (findMethodFromIndex_mem hf) lq g
    revert hne hret
    rcases callee meth lq g with ⟨e, g'⟩
    rintro hne hret
    rcases e with (_ | v) | f | _
    · simp_all [EffectPost, successors.eq_def, Opcode.width.eq_def]
    · have hv : meth.returnsValue = true := by simpa using hret (some v) rfl
      simp only [hv, if_true] at h3 ⊢
      rw [push_ok (by omega) (by rw [hl]; omega)]
      simp [EffectPost, successors.eq_def, Opcode.width.eq_def, hpc, hss, hl, Frame.setTop]
    · simp_all [EffectPost]
    · simp [EffectPost]

/-- One handler, given the depth its effect needs, touches only slots inside the buffer and
    leaves the depth `effect` says at a successor. -/
theorem exec_depth (hcallee : ∀ meth ∈ cls.methods, ∀ lq g, SafeEnding meth (callee meth lq g).1)
    (h : Room cls m fr op) :
    Wp (exec cls callee m fr g op)
      (EffectPost m fr op (effect cls m fr.programCounter op).1 (effect cls m fr.programCounter op).2) NotStack := by
  cases op
  case invokestatic => exact exec_depth_invokestatic hcallee h
  all_goals obtain ⟨h1, h2, h3⟩ := h.bounds rfl
  case nop | getstatic | iinc | return_ => exact exec_depth_still (by decide)
  case iconst_m1 | iconst_0 | iconst_1 | iconst_2 | iconst_3 | iconst_4 | iconst_5 | iload_0 | iload_1 | iload_2
    | iload_3 | aload_0 | aload_1 | aload_2 | aload_3 => exact exec_depth_push (by decide) (by omega) (by omega)
  case bipush | sipush | ldc | iload | aload => exact exec_depth_immediate (by decide) (by omega) (by omega)
  case istore | astore | istore_0 | istore_1 | istore_2 | istore_3 | astore_0 | astore_1 | astore_2 | astore_3 =>
    exact exec_depth_store (by decide) (by omega) h2
  case iadd | isub | imul | idiv | irem | ishl | ishr | iushr | iand | ior | ixor =>
    exact exec_depth_binop (by decide) (by omega) h2
  case dup => exact exec_depth_dup (by omega) (by omega)
  case ineg => exact exec_depth_ineg (by omega) h2
  case goto => exact exec_depth_goto
  case ifeq | ifne | iflt | ifge | ifgt | ifle => exact exec_depth_if (by decide) (by omega) h2
  case if_icmpeq | if_icmpne | if_icmplt | if_icmpge | if_icmpgt | if_icmple => exact exec_depth_ifCmp (by decide) (by omega) h2
  case invokevirtual | ireturn | areturn => exact exec_depth_top (by decide) (by omega) h2
  case newarray => exact exec_depth_newarray (by omega) h2
  case arraylength => exact exec_depth_arraylength (by omega) h2
  case iastore => exact exec_depth_iastore (by omega) h2
  case iaload => exact exec_depth_iaload (by omega) h2

end Handler

/-! ## A loop pass, and a whole run -/

/-- What every frame of `m` at the head of the loop satisfies. -/
structure AtDepth (m : Method) (d : Nat → Nat) (fr : Frame) : Prop where
  reach : CfgReach m fr.programCounter
  depth : fr.stackSize = d fr.programCounter
  buffer : fr.operandStack.length = m.maxStack

section Run

variable {cls : ClassFile} {m : Method} {d : Nat → Nat} {eff : Nat → Opcode → Nat × Nat}

theorem DepthMap.le_maxStack (hd : DepthMap eff m d) {pc : Nat} (h : CfgReach m pc) : d pc ≤ m.maxStack := by
  induction h with
  | entry => simp [hd.entry]
  | @next pc pc' hr hl hs ih =>
    cases hdec : decodeAt m pc with
    | none => simp only [hdec, successors.eq_def, List.mem_singleton] at hs; exact hs ▸ ih
    | some op => exact (hd.succ pc op pc' hr hl hdec (hdec ▸ hs)).2

theorem AtDepth.init (hd : DepthMap eff m d) (locals : List (BitVec 32)) : AtDepth m d (Frame.init m locals) :=
  ⟨.entry, by simp [Frame.init, hd.entry], by simp [Frame.init]⟩

theorem successors_ne_nil_or (m : Method) (pc : Nat) (op : Opcode) :
    successors m pc (some op) ≠ [] ∨ (effect cls m pc op).2 = 0 := by
  cases op <;> simp [successors.eq_def, effect.eq_def]

theorem room_of_depthMap (hd : DepthMap (effect cls m) m d) {fr : Frame} {op : Opcode} (hinv : AtDepth m d fr)
    (hl : fr.programCounter < m.code.length) (hdec : decodeAt m fr.programCounter = some op) :
    Room cls m fr op := by
  have hr := hd.reads _ op hinv.reach hl hdec
  have hmax := hd.le_maxStack hinv.reach
  have hs := hinv.depth
  have hb := hinv.buffer
  refine ⟨by omega, by omega, ?_⟩
  rcases @successors_ne_nil_or cls m fr.programCounter op with hne | h0
  · obtain ⟨pc', hpc'⟩ := List.exists_mem_of_ne_nil _ hne
    have := hd.succ _ op pc' hinv.reach hl hdec hpc'
    omega
  · rw [h0]; omega

theorem step_depth (callee : Method → List (BitVec 32) → Glob → Ending × Glob) {fr : Frame} {g : Glob}
    (hd : DepthMap (effect cls m) m d) (hr : ReturnsMatch m)
    (hcallee : ∀ meth ∈ cls.methods, ∀ lq g, SafeEnding meth (callee meth lq g).1)
    (hinv : AtDepth m d fr) (hl : fr.programCounter < m.code.length) :
    Wp (step cls callee m fr g) (fun r => match r with
      | .next fr' _ => AtDepth m d fr'
      | .done e _ => SafeEnding m e) NotStack := by
  simp only [step, codeAt_ok hl, ok_bind]
  cases hdec : Opcode.ofByte (m.code.getD fr.programCounter 0) with
  | none => exact hinv
  | some op =>
    have hdec' : decodeAt m fr.programCounter = some op := hdec
    rw [wp_map]
    refine (exec_depth hcallee (room_of_depthMap hd hinv hl hdec')).imp ?_ fun _ h => h
    rintro (⟨fr', g'⟩ | ⟨e, g'⟩) hpost <;> simp only [record_next, record_done]
    · obtain ⟨hsucc, hss, hlen⟩ := hpost
      have hs := hd.succ _ op _ hinv.reach hl hdec' hsucc
      have hrd := hd.reads _ op hinv.reach hl hdec'
      refine ⟨.next hinv.reach hl (hdec' ▸ hsucc), ?_, hlen.trans hinv.buffer⟩
      rw [hss, hs.1, hinv.depth]
      omega
    · obtain ⟨hne, hret⟩ := hpost
      refine ⟨hne, fun v hv => ?_⟩
      have hm := hr _ hinv.reach
      rcases hret v hv with ⟨rfl, rfl⟩ | ⟨hop, hsome⟩
      · simp [hm.2.1 hl hdec']
      · rw [hsome, hm.2.2 hl (by rcases hop with rfl | rfl <;> simp [hdec'])]

theorem run_depth (hcls : ∀ m' ∈ cls.methods, ∃ d, DepthMap (effect cls m') m' d ∧ ReturnsMatch m') (n : Nat) :
    ∀ {m : Method} {d : Nat → Nat} {fr : Frame} (g : Glob), DepthMap (effect cls m) m d → ReturnsMatch m →
      AtDepth m d fr → SafeEnding m (run cls n m fr g).1 := by
  induction n with
  | zero => intro m d fr g _ _ _; simp [run, SafeEnding]
  | succ n ih =>
    intro m d fr g hd hr hinv
    have hcallee : ∀ meth ∈ cls.methods, ∀ lq g,
        SafeEnding meth (run cls n meth (Frame.init meth lq) g).1 := fun meth hm lq g =>
      let ⟨_, hd', hr'⟩ := hcls meth hm
      ih g hd' hr' (AtDepth.init hd' lq)
    unfold run
    split_ifs with hl
    · have hstep := step_depth (fun m' l g' => run cls n m' (Frame.init m' l) g') (g := g)
        hd hr hcallee hinv hl
      revert hstep
      rcases step cls (fun m' l g' => run cls n m' (Frame.init m' l) g') m fr g with f | ⟨fr', g'⟩ | ⟨e, g'⟩
      · intro hf; exact ⟨by simpa using hf, by simp⟩
      · intro h; exact ih g' hd hr h
      · exact id
    · refine ⟨by simp, fun v hv => ?_⟩
      cases hv
      simp [(hr _ hinv.reach).1 (by omega)]

/-- `(fr', g')` heads a pass of the loop in the run of `m` from `(fr, g)` on fuel `n`. -/
inductive Visits (cls : ClassFile) (m : Method) : Nat → Frame → Glob → Frame → Glob → Prop
  | here {n : Nat} {fr : Frame} {g : Glob} : Visits cls m n fr g fr g
  | next {n : Nat} {fr fr₁ fr' : Frame} {g g₁ g' : Glob} : fr.programCounter < m.code.length →
      step cls (fun m' l g' => run cls n m' (Frame.init m' l) g') m fr g = .ok (.next fr₁ g₁) →
      Visits cls m n fr₁ g₁ fr' g' → Visits cls m (n + 1) fr g fr' g'

theorem visits_atDepth (hcls : ∀ m' ∈ cls.methods, ∃ d, DepthMap (effect cls m') m' d ∧ ReturnsMatch m')
    (hd : DepthMap (effect cls m) m d) (hr : ReturnsMatch m) {n : Nat} {fr fr' : Frame} {g g' : Glob}
    (h : Visits cls m n fr g fr' g') : AtDepth m d fr → AtDepth m d fr' := by
  induction h with
  | here => exact id
  | @next n _ _ _ g _ _ hl hstep _ ih =>
    intro hinv
    have := step_depth (fun m' l g' => run cls n m' (Frame.init m' l) g') (g := g) hd hr
      (fun meth hm lq g =>
        let ⟨_, hd', hr'⟩ := hcls meth hm
        run_depth hcls n g hd' hr' (AtDepth.init hd' lq)) hinv hl
    rw [hstep] at this
    exact ih this

theorem stack_depth_invariant (hcls : ∀ m' ∈ cls.methods, ∃ d, DepthMap (effect cls m') m' d ∧ ReturnsMatch m')
    (hd : DepthMap (effect cls m) m d) (hr : ReturnsMatch m) :
    (∀ n locals g fr g', Visits cls m n (Frame.init m locals) g fr g' →
      fr.stackSize = d fr.programCounter ∧ fr.stackSize ≤ m.maxStack) ∧
    ∀ n locals g, (execute cls n m locals g).1 ≠ .fault (.undefined .operandStack) := by
  refine ⟨fun n locals g fr g' h => ?_, fun n locals g => (run_depth hcls n g hd hr (AtDepth.init hd locals)).1⟩
  have hinv := visits_atDepth hcls hd hr h (AtDepth.init hd locals)
  exact ⟨hinv.depth, hinv.depth ▸ by exact_mod_cast hd.le_maxStack hinv.reach⟩

end Run

/-! ## Depth maps that can be checked -/

section Check

variable {m : Method} {d : Nat → Nat} {eff : Nat → Opcode → Nat × Nat}

theorem CfgReach.mem_of_closed (pcs : List Nat) (h0 : 0 ∈ pcs)
    (hc : ∀ pc ∈ pcs, pc < m.code.length → ∀ pc' ∈ successors m pc (decodeAt m pc), pc' ∈ pcs)
    {pc : Nat} (h : CfgReach m pc) : pc ∈ pcs := by
  induction h with
  | entry => exact h0
  | next _ hl hs ih => exact hc _ ih hl _ hs

/-- A depth map, checked at the program counters of a set closed under `successors`. -/
theorem DepthMap.of_closed (pcs : List Nat) (h0 : 0 ∈ pcs)
    (hc : ∀ pc ∈ pcs, pc < m.code.length → ∀ pc' ∈ successors m pc (decodeAt m pc), pc' ∈ pcs)
    (hentry : d 0 = 0)
    (hpcs : ∀ pc ∈ pcs, pc < m.code.length → ∀ op ∈ (decodeAt m pc).toList,
      (eff pc op).1 ≤ d pc ∧ ∀ pc' ∈ successors m pc (some op),
        d pc' = d pc - (eff pc op).1 + (eff pc op).2 ∧ d pc' ≤ m.maxStack) :
    DepthMap eff m d where
  entry := hentry
  reads pc op hr hl hdec := (hpcs pc (hr.mem_of_closed pcs h0 hc) hl op (by simp [hdec])).1
  succ pc op _ hr hl hdec hs := (hpcs pc (hr.mem_of_closed pcs h0 hc) hl op (by simp [hdec])).2 _ hs

theorem ReturnsMatch.of_closed (pcs : List Nat) (h0 : 0 ∈ pcs)
    (hc : ∀ pc ∈ pcs, pc < m.code.length → ∀ pc' ∈ successors m pc (decodeAt m pc), pc' ∈ pcs)
    (hpcs : ∀ pc ∈ pcs, (m.code.length ≤ pc → m.returnsValue = false) ∧
      (pc < m.code.length → decodeAt m pc = some .return_ → m.returnsValue = false) ∧
      (pc < m.code.length → (decodeAt m pc = some .ireturn ∨ decodeAt m pc = some .areturn) →
        m.returnsValue = true)) :
    ReturnsMatch m := fun pc hr => hpcs pc (hr.mem_of_closed pcs h0 hc)

end Check

/-- `one`: `iconst_1; ireturn`. -/
def one : Method := ⟨[0x04, 0xac], 1, 0, 0, true⟩

/-- `main`: `invokestatic #1` (`one`), then `return` with its value left on the stack. -/
def callOne : Method := ⟨[0xb8, 0x00, 0x01, 0xb1], 1, 0, 0, false⟩

def callOneClass : ClassFile := ⟨[.methodref 1], [callOne, one]⟩

theorem callOne_stack_safe :
    (∀ n locals g fr g', Visits callOneClass callOne n (Frame.init callOne locals) g fr g' →
      fr.stackSize = ((if fr.programCounter = 0 then 0 else 1 : Nat) : Int) ∧ fr.stackSize ≤ callOne.maxStack) ∧
    ∀ n locals g, (execute callOneClass n callOne locals g).1 ≠ .fault (.undefined .operandStack) := by
  have hd : ∀ m ∈ callOneClass.methods, DepthMap (effect callOneClass m) m (fun pc => if pc = 0 then 0 else 1) ∧ ReturnsMatch m := by
    intro m hm
    simp only [callOneClass, List.mem_cons, List.mem_nil_iff, or_false] at hm
    rcases hm with rfl | rfl
    · exact ⟨DepthMap.of_closed [0, 3] (by decide) (by decide) rfl (by decide),
        ReturnsMatch.of_closed [0, 3] (by decide) (by decide) (by decide)⟩
    · exact ⟨DepthMap.of_closed [0, 1] (by decide) (by decide) rfl (by decide),
        ReturnsMatch.of_closed [0, 1] (by decide) (by decide) (by decide)⟩
  obtain ⟨h1, h2⟩ := hd callOne (by simp [callOneClass])
  exact stack_depth_invariant (fun m hm => ⟨_, hd m hm⟩) h1 h2

/-- `dup; return`, a void method. -/
def dupReturn : Method := ⟨[0x59, 0xb1], 1, 0, 0, false⟩

def dupReturnClass : ClassFile := ⟨[], [dupReturn]⟩

/-- Under the stated table `dup; return` has the depth map `0, 1` and returns as a void method
    should, yet on its empty stack `dup` reads `operand_stack[-1]`. -/
theorem dupReturn_underruns :
    (∀ m ∈ dupReturnClass.methods, DepthMap (statedEffect dupReturnClass m) m id ∧ ReturnsMatch m) ∧
      (execute dupReturnClass 1 dupReturn [] ⟨[], []⟩).1 = .fault (.undefined .operandStack) := by
  refine ⟨fun m hm => ?_, rfl⟩
  simp only [dupReturnClass, List.mem_singleton] at hm
  subst hm
  exact ⟨DepthMap.of_closed [0, 1] (by decide) (by decide) rfl (by decide),
    ReturnsMatch.of_closed [0, 1] (by decide) (by decide) (by decide)⟩

end Cs24.Jvm
