/-
  Cs24.Jvm.Execute — `execute` (jvm.c): one invocation's loop over its method's bytes.

  A frame is the C function's locals: `program_counter`, the `calloc`'d `operand_stack`
  of `max_stack` slots, `stack_size`, and the `locals` array the caller passed. Every C
  array access is checked against the array's slots: an index outside them is undefined
  behaviour (`UB.operandStack`, `.locals`, `.code`, `.heap`). `exec` is the body of the
  `switch`, one arm per case label, written with the handlers' shared shapes (`stackHelp`,
  `binaryOp`, `ifCond`, `ifCmp`, `loadLocal`, `storeLocal`); `step` is one pass of the
  `while` loop, and a byte no case matches leaves the frame as it is. `run` is the loop
  with fuel: one unit a pass, and an `invokestatic`'s callee runs on the fuel left.
  Every fault aborts the process and so ends every caller too.
-/

import Cs24.Jvm.Class

namespace Cs24.Jvm

/-- One invocation's C locals. -/
structure Frame where
  programCounter : Nat
  operandStack : List (BitVec 32)
  stackSize : Int
  locals : List (BitVec 32)
  deriving DecidableEq, Repr

/-- The frame `execute` starts from: pc 0 and `calloc(sizeof(int32_t), max_stack)`. -/
def Frame.init (m : Method) (locals : List (BitVec 32)) : Frame :=
  ⟨0, List.replicate m.maxStack 0, 0, locals⟩

/-- `a[i]` for a C array of `a.length` slots. -/
def readSlot (a : List (BitVec 32)) (i : Int) (ub : UB) : Except Fault (BitVec 32) :=
  if 0 ≤ i ∧ i < a.length then .ok (a.getD i.toNat 0) else .error (.undefined ub)

/-- `a[i] = v` for a C array of `a.length` slots. -/
def writeSlot (a : List (BitVec 32)) (i : Int) (v : BitVec 32) (ub : UB) :
    Except Fault (List (BitVec 32)) :=
  if 0 ≤ i ∧ i < a.length then .ok (a.set i.toNat v) else .error (.undefined ub)

/-- `method->code.code[k]`. -/
def codeAt (m : Method) (k : Nat) : Except Fault UInt8 :=
  if k < m.code.length then .ok (m.code.getD k 0) else .error (.undefined .code)

/-- `(int8_t) b`. -/
def int8Of (b : UInt8) : Int := (BitVec.ofNat 8 b.toNat).toInt

/-- `(int16_t)((b1 << 8) | b2)`: the big-endian 16 bits, sign-extended. -/
def int16Of (b1 b2 : UInt8) : Int := (BitVec.ofNat 16 (b1.toNat * 256 + b2.toNat)).toInt

/-- `program_counter += off` on a `size_t`. -/
def jump (pc : Nat) (off : Int) : Nat := (((pc : Int) + off) % 2 ^ 64).toNat

/-- `assert(c)`. -/
def assertThat (c : Prop) [Decidable c] : Except Fault Unit :=
  if c then .ok () else .error .assertion

theorem assertThat_of {c : Prop} [Decidable c] (h : c) : assertThat c = .ok () := if_pos h

theorem assertThat_of_not {c : Prop} [Decidable c] (h : ¬ c) : assertThat c = .error .assertion := if_neg h

namespace Frame

variable (fr : Frame)

def advance (k : Nat) : Frame := { fr with programCounter := fr.programCounter + k }

/-- `operand_stack[stack_size - k]`. -/
def peek (k : Nat) : Except Fault (BitVec 32) := readSlot fr.operandStack (fr.stackSize - k) .operandStack

/-- `operand_stack[stack_size - k] = v`. -/
def poke (k : Nat) (v : BitVec 32) : Except Fault Frame := do
  let s ← writeSlot fr.operandStack (fr.stackSize - k) v .operandStack
  pure { fr with operandStack := s }

/-- `stack_size -= k`. -/
def drop (k : Nat) : Frame := { fr with stackSize := fr.stackSize - k }

/-- The value `k` slots below the top: what `operand_stack[stack_size - k]` reads. -/
def top (k : Nat) : BitVec 32 := fr.operandStack.getD (fr.stackSize - k).toNat 0

end Frame

/-- `stack_help(operand_stack, stack_size, val, num)`: slot `stack_size - num` takes `val`
    and the size becomes `stack_size - num + 1`. -/
def stackHelp (fr : Frame) (val : BitVec 32) (num : Nat) : Except Fault Frame := do
  let fr ← fr.poke num val
  pure { fr with stackSize := fr.stackSize - num + 1 }

/-- `operand_stack[stack_size] = v; stack_size++`: `stack_help` with `num = 0`. -/
def Frame.push (fr : Frame) (v : BitVec 32) : Except Fault Frame := stackHelp fr v 0

/-- `stack_size = stack_help(operand_stack, stack_size, a OP b, 2)`, `a` the second slot
    from the top and `b` the top. -/
def binaryOp (f : BitVec 32 → BitVec 32 → Except Fault (BitVec 32)) (fr : Frame) :
    Except Fault Frame := do
  let a ← fr.peek 2
  let b ← fr.peek 1
  stackHelp fr (← f a b) 2

/-- `operand_stack[stack_size] = locals[i]; stack_size++`. -/
def loadLocal (fr : Frame) (i : Nat) : Except Fault Frame := do
  fr.push (← readSlot fr.locals i .locals)

/-- `locals[i] = operand_stack[stack_size - 1]; stack_size--` (`istore` and `astore` go
    through a `uint32_t`, which changes no bit). -/
def storeLocal (fr : Frame) (i : Nat) : Except Fault Frame := do
  let v ← fr.peek 1
  let l ← writeSlot fr.locals i v .locals
  pure ({ fr with locals := l }.drop 1)

/-- The target of a branch at `pc`: `program_counter += (int16_t)((b1 << 8) | b2)`. -/
def branchTarget (m : Method) (pc : Nat) : Except Fault Nat := do
  let b1 ← codeAt m (pc + 1)
  let b2 ← codeAt m (pc + 2)
  pure (jump pc (int16Of b1 b2))

/-- `if<cond>`: pop `a`; jump when `p a`, else go on 3 bytes on. -/
def ifCond (m : Method) (p : BitVec 32 → Bool) (fr : Frame) : Except Fault Frame := do
  let a ← fr.peek 1
  let pc ← if p a then branchTarget m fr.programCounter else pure (fr.programCounter + 3)
  pure { fr.drop 1 with programCounter := pc }

/-- `if_icmp<cond>`: pop `b` (the top) and `a`; jump when `p a b`. -/
def ifCmp (m : Method) (p : BitVec 32 → BitVec 32 → Bool) (fr : Frame) : Except Fault Frame := do
  let b ← fr.peek 1
  let a ← fr.peek 2
  let pc ← if p a b then branchTarget m fr.programCounter else pure (fr.programCounter + 3)
  pure { fr.drop 2 with programCounter := pc }

/-- The `for (i = len - 1; i >= 0; i--)` loop of `invokestatic`: slot `i` of the callee's
    locals takes the caller's top, which is popped. -/
def popParameters : Nat → List (BitVec 32) → Frame → Except Fault (List (BitVec 32) × Frame)
  | 0, lq, fr => .ok (lq, fr)
  | i + 1, lq, fr => do
    let v ← fr.peek 1
    let lq ← writeSlot lq i v .locals
    popParameters i lq (fr.drop 1)

/-- What one pass of the loop leaves. -/
inductive Next where
  /-- The loop goes on. -/
  | next (fr : Frame) (g : Glob)
  /-- `execute` returns, or a callee stopped the run. -/
  | done (e : Ending) (g : Glob)

/-- The array access an instruction `op` made, read off the frame before its pass and the
    frame after: the handle and count `newarray` pushed and popped, the handle, index and
    value `iastore` popped, and what `iaload` and `arraylength` pushed for what they popped.
    It depends on what the pass did to the frame, not on what the handler chose to log. -/
def observe (op : Opcode) (fr fr' : Frame) : List Event :=
  match op with
  | .newarray => [.newarray (fr'.top 1).toNat (fr.top 1)]
  | .arraylength => [.arraylength (fr.top 1).toNat (fr'.top 1)]
  | .iastore => [.iastore (fr.top 3).toNat (fr.top 2) (fr.top 1)]
  | .iaload => [.iaload (fr.top 2).toNat (fr.top 1) (fr'.top 1)]
  | _ => []

/-- The loop records the access of a pass of `op` from `fr` that went on. -/
def Next.record (op : Opcode) (fr : Frame) : Next → Next
  | .next fr' g' => .next fr' { g' with log := g'.log ++ observe op fr fr' }
  | .done e g' => .done e g'

section Switch

variable (cls : ClassFile) (callee : Method → List (BitVec 32) → Glob → Ending × Glob)
  (m : Method) (fr : Frame) (g : Glob)

/-- `case i_invokestatic`: the callee runs on `locals_queue`, and its value, if any, is
    pushed. A fault after the callee returned ends the run with the callee's heap. -/
def invokestatic : Except Fault Next := do
  let b1 ← codeAt m (fr.programCounter + 1)
  let b2 ← codeAt m (fr.programCounter + 2)
  match findMethodFromIndex (b1.toNat * 256 + b2.toNat) cls with
  | none => .error .resolution
  | some meth =>
    let (lq, fr) ← popParameters meth.parameters (List.replicate meth.maxLocals 0) fr
    match callee meth lq g with
    | (.returned none, g') => pure (.next (fr.advance 3) g')
    | (.returned (some v), g') =>
      match fr.push v with
      | .ok fr => pure (.next (fr.advance 3) g')
      | .error f => pure (.done (.fault f) g')
    | (e, g') => pure (.done e g')

/-- `case i_newarray`: `count + 1` slots, slot 0 the count and the rest zero. -/
def newarray : Except Fault Next := do
  let count ← fr.peek 1
  let c1 ← cAdd count 1
  assertThat (0 < c1.toInt)
  let (heap, ref) := heapAdd g.heap (count :: List.replicate count.toNat 0)
  let fr ← fr.poke 1 ref
  pure (.next (fr.advance 2) { g with heap := heap })

/-- `case i_arraylength`: slot 0 of the array. -/
def arraylength : Except Fault Next := do
  let ref ← fr.peek 1
  let arr ← heapGet g.heap ref
  let len ← readSlot arr 0 .heap
  let fr ← fr.poke 1 len
  pure (.next (fr.advance 1) g)

/-- `case i_iastore`: `arr[index + 1] = value`. -/
def iastore : Except Fault Next := do
  let value ← fr.peek 1
  let index ← fr.peek 2
  let ref ← fr.peek 3
  let arr ← heapGet g.heap ref
  let i ← cAdd index 1
  let arr ← writeSlot arr i.toInt value .heap
  pure (.next ((fr.drop 3).advance 1) { g with heap := g.heap.set ref.toNat arr })

/-- `case i_iaload`: `heap_get(heap, ref)[index + 1]`. -/
def iaload : Except Fault Next := do
  let index ← fr.peek 1
  let ref ← fr.peek 2
  let arr ← heapGet g.heap ref
  let i ← cAdd index 1
  let val ← readSlot arr i.toInt .heap
  let fr ← (fr.drop 2).push val
  pure (.next (fr.advance 1) g)

/-- The body of `execute`'s `switch`, for the case label `op` at the program counter. -/
def exec (op : Opcode) : Except Fault Next :=
  let pc := fr.programCounter
  let go (w : Nat) (x : Except Fault Frame) : Except Fault Next :=
    x.map fun fr => .next (fr.advance w) g
  match op with
  | .bipush => do go 2 (fr.push (wrap (int8Of (← codeAt m (pc + 1)))))
  | .iadd => go 1 do
      let b ← fr.peek 1
      let a ← fr.peek 2
      stackHelp fr (← cAdd b a) 2
  | .return_ => pure (.done (.returned none) g)
  | .getstatic => pure (.next (fr.advance 3) g)
  | .invokevirtual => do
      let v ← fr.peek 1
      pure (.next ((fr.drop 1).advance 3) { g with log := g.log ++ [.print v] })
  | .iconst_m1 | .iconst_0 | .iconst_1 | .iconst_2 | .iconst_3 | .iconst_4 | .iconst_5 =>
      go 1 (fr.push (wrap ((op.toByte.toNat : Int) - Opcode.iconst_m1.toByte.toNat - 1)))
  | .sipush => do
      let b1 ← codeAt m (pc + 1)
      let b2 ← codeAt m (pc + 2)
      go 3 (fr.push (wrap (int16Of b1 b2)))
  | .isub => go 1 (binaryOp cSub fr)
  | .imul => go 1 (binaryOp cMul fr)
  | .idiv => go 1 do assertThat ((← fr.peek 1) ≠ 0); binaryOp cDiv fr
  | .irem => go 1 do assertThat ((← fr.peek 1) ≠ 0); binaryOp cRem fr
  | .ineg => go 1 do fr.poke 1 (← cMul (← fr.peek 1) (-1))
  | .ishl => go 1 do assertThat (0 ≤ (← fr.peek 1).toInt); binaryOp cShl fr
  | .ishr => go 1 do assertThat (0 ≤ (← fr.peek 1).toInt); binaryOp cShr fr
  | .iushr => go 1 do assertThat (0 ≤ (← fr.peek 1).toInt); binaryOp cUshr fr
  | .iand => go 1 (binaryOp (fun a b => .ok (a &&& b)) fr)
  | .ior => go 1 (binaryOp (fun a b => .ok (a ||| b)) fr)
  | .ixor => go 1 (binaryOp (fun a b => .ok (a ^^^ b)) fr)
  | .iload | .aload => do go 2 (loadLocal fr (← codeAt m (pc + 1)).toNat)
  | .istore | .astore => do go 2 (storeLocal fr (← codeAt m (pc + 1)).toNat)
  | .iload_0 | .iload_1 | .iload_2 | .iload_3 =>
      go 1 (loadLocal fr (op.toByte.toNat - Opcode.iload_0.toByte.toNat))
  | .aload_0 | .aload_1 | .aload_2 | .aload_3 =>
      go 1 (loadLocal fr (op.toByte.toNat - Opcode.aload_0.toByte.toNat))
  | .istore_0 | .istore_1 | .istore_2 | .istore_3 =>
      go 1 (storeLocal fr (op.toByte.toNat - Opcode.istore_0.toByte.toNat))
  | .astore_0 | .astore_1 | .astore_2 | .astore_3 =>
      go 1 (storeLocal fr (op.toByte.toNat - Opcode.astore_0.toByte.toNat))
  | .iinc => do
      let i ← codeAt m (pc + 1)
      let b ← codeAt m (pc + 2)
      let v ← intResult ((← readSlot fr.locals i.toNat .locals).toInt + int8Of b)
      let l ← writeSlot fr.locals i.toNat v .locals
      pure (.next ({ fr with locals := l }.advance 3) g)
  | .ldc => do go 2 (fr.push (← integerConstant cls (← codeAt m (pc + 1)).toNat))
  | .ifeq => ifCond m (· == 0) fr |>.map (.next · g)
  | .ifne => ifCond m (· != 0) fr |>.map (.next · g)
  | .iflt => ifCond m (fun a => decide (a.toInt < 0)) fr |>.map (.next · g)
  | .ifge => ifCond m (fun a => decide (0 ≤ a.toInt)) fr |>.map (.next · g)
  | .ifgt => ifCond m (fun a => decide (0 < a.toInt)) fr |>.map (.next · g)
  | .ifle => ifCond m (fun a => decide (a.toInt ≤ 0)) fr |>.map (.next · g)
  | .if_icmpeq => ifCmp m (· == ·) fr |>.map (.next · g)
  | .if_icmpne => ifCmp m (· != ·) fr |>.map (.next · g)
  | .if_icmplt => ifCmp m (fun a b => decide (a.toInt < b.toInt)) fr |>.map (.next · g)
  | .if_icmpge => ifCmp m (fun a b => decide (a.toInt ≥ b.toInt)) fr |>.map (.next · g)
  | .if_icmpgt => ifCmp m (fun a b => decide (a.toInt > b.toInt)) fr |>.map (.next · g)
  | .if_icmple => ifCmp m (fun a b => decide (a.toInt ≤ b.toInt)) fr |>.map (.next · g)
  | .goto => do pure (.next { fr with programCounter := ← branchTarget m pc } g)
  | .ireturn | .areturn => do pure (.done (.returned (some (← fr.peek 1))) g)
  | .invokestatic => invokestatic cls callee m fr g
  | .nop => pure (.next (fr.advance 1) g)
  | .dup => go 1 do fr.push (← fr.peek 1)
  | .newarray => newarray fr g
  | .arraylength => arraylength fr g
  | .iastore => iastore fr g
  | .iaload => iaload fr g

/-- One pass of `while (program_counter < code_length)`: the `switch` on the byte at the
    program counter, and the loop's record of the array instruction it executed. A byte no
    case matches changes nothing. -/
def step : Except Fault Next := do
  match Opcode.ofByte (← codeAt m fr.programCounter) with
  | some op => (exec cls callee m fr g op).map (Next.record op fr)
  | none => pure (.next fr g)

end Switch

@[simp] theorem record_next (op : Opcode) (fr fr' : Frame) (g : Glob) :
    Next.record op fr (.next fr' g) = .next fr' { g with log := g.log ++ observe op fr fr' } := rfl

@[simp] theorem record_done (op : Opcode) (fr : Frame) (e : Ending) (g : Glob) :
    Next.record op fr (.done e g) = .done e g := rfl

/-- `execute`'s loop from `fr`, at most `n` passes. -/
def run (cls : ClassFile) : Nat → Method → Frame → Glob → Ending × Glob
  | 0, _, _, g => (.outOfFuel, g)
  | n + 1, m, fr, g =>
    if fr.programCounter < m.code.length then
      match step cls (fun m' l g' => run cls n m' (Frame.init m' l) g') m fr g with
      | .error f => (.fault f, g)
      | .ok (.next fr' g') => run cls n m fr' g'
      | .ok (.done e g') => (e, g')
    else (.returned none, g)

/-- `execute(method, locals, class, heap)`. -/
def execute (cls : ClassFile) (n : Nat) (m : Method) (locals : List (BitVec 32)) (g : Glob) :
    Ending × Glob :=
  run cls n m (Frame.init m locals) g

/-! ## Symbolic execution

`Wp x post err`: `x` ends in a value satisfying `post` or a fault satisfying `err`. Its
`simp` lemmas push it through `do` blocks; each C array access, in bounds, is its value
(`readSlot_ok`, `writeSlot_ok`, `codeAt_ok`, bounds discharged by `omega`). -/

def Wp {ε α : Type} (x : Except ε α) (post : α → Prop) (err : ε → Prop) : Prop :=
  match x with
  | .ok a => post a
  | .error e => err e

section Wp

variable {ε α β : Type} {post : β → Prop} {err : ε → Prop}

@[simp] theorem wp_ok (a : β) : Wp (.ok a : Except ε β) post err ↔ post a := Iff.rfl

@[simp] theorem wp_error (e : ε) : Wp (.error e : Except ε β) post err ↔ err e := Iff.rfl

@[simp] theorem wp_pure (a : β) : Wp (pure a : Except ε β) post err ↔ post a := Iff.rfl

@[simp] theorem wp_bind (x : Except ε α) (f : α → Except ε β) :
    Wp (x >>= f) post err ↔ Wp x (fun a => Wp (f a) post err) err := by
  cases x <;> rfl

@[simp] theorem wp_map (x : Except ε α) (f : α → β) :
    Wp (x.map f) post err ↔ Wp x (fun a => post (f a)) err := by
  cases x <;> rfl

@[simp] theorem wp_fmap (x : Except ε α) (f : α → β) :
    Wp (f <$> x) post err ↔ Wp x (fun a => post (f a)) err := by
  cases x <;> rfl

@[simp] theorem map_map_except {γ : Type} (x : Except ε α) (f : α → β) (h : β → γ) :
    (x.map f).map h = x.map (h ∘ f) := by
  cases x <;> rfl

@[simp] theorem map_bind_except {γ : Type} (x : Except ε α) (f : α → Except ε β) (h : β → γ) :
    (x >>= f).map h = x >>= fun a => (f a).map h := by
  cases x <;> rfl

@[simp] theorem bind_ok_eq_map (x : Except ε α) (f : α → β) :
    (x >>= fun a => Except.ok (f a)) = x.map f := by
  cases x <;> rfl

@[simp] theorem error_bind (e : ε) (f : α → Except ε β) : (Except.error e >>= f) = .error e := rfl

theorem except_bind_eq_ok {x : Except ε α} {f : α → Except ε β} {b : β} :
    x >>= f = .ok b ↔ ∃ a, x = .ok a ∧ f a = .ok b := by
  cases x <;> simp [bind, Except.bind]

theorem except_map_eq_ok {x : Except ε α} {f : α → β} {b : β} :
    x.map f = .ok b ↔ ∃ a, x = .ok a ∧ f a = b := by
  cases x <;> simp [Except.map]

theorem wp_ite (c : Prop) [Decidable c] (x y : Except ε β) :
    Wp (if c then x else y) post err ↔ (c → Wp x post err) ∧ (¬ c → Wp y post err) := by
  by_cases h : c <;> simp [h]

theorem Wp.imp {x : Except ε β} {post' : β → Prop} {err' : ε → Prop} (h : Wp x post err)
    (hp : ∀ a, post a → post' a) (he : ∀ e, err e → err' e) : Wp x post' err' := by
  cases x with
  | ok a => exact hp a h
  | error e => exact he e h

end Wp

theorem readSlot_ok {a : List (BitVec 32)} {i : Int} {ub : UB} (h0 : 0 ≤ i) (h : i < a.length) :
    readSlot a i ub = .ok (a.getD i.toNat 0) := if_pos ⟨h0, h⟩

theorem writeSlot_ok {a : List (BitVec 32)} {i : Int} {v : BitVec 32} {ub : UB} (h0 : 0 ≤ i)
    (h : i < a.length) : writeSlot a i v ub = .ok (a.set i.toNat v) := if_pos ⟨h0, h⟩

theorem readSlot_eq_ok {a : List (BitVec 32)} {i : Int} {ub : UB} {v : BitVec 32} (h : readSlot a i ub = .ok v) :
    0 ≤ i ∧ i < a.length ∧ v = a.getD i.toNat 0 := by
  unfold readSlot at h
  split_ifs at h with hi
  · exact ⟨hi.1, hi.2, (Except.ok.inj h).symm⟩

theorem writeSlot_eq_ok {a a' : List (BitVec 32)} {i : Int} {v : BitVec 32} {ub : UB}
    (h : writeSlot a i v ub = .ok a') : 0 ≤ i ∧ i < a.length ∧ a' = a.set i.toNat v := by
  unfold writeSlot at h
  split_ifs at h with hi
  · exact ⟨hi.1, hi.2, (Except.ok.inj h).symm⟩

theorem readSlot_nat {a : List (BitVec 32)} {i : Nat} {ub : UB} (h : i < a.length) :
    readSlot a i ub = .ok (a.getD i 0) := by
  rw [readSlot_ok (by omega) (by omega), Int.toNat_ofNat]

theorem writeSlot_nat {a : List (BitVec 32)} {i : Nat} {v : BitVec 32} {ub : UB} (h : i < a.length) :
    writeSlot a i v ub = .ok (a.set i v) := by
  rw [writeSlot_ok (by omega) (by omega), Int.toNat_ofNat]

theorem codeAt_ok {m : Method} {k : Nat} (h : k < m.code.length) :
    codeAt m k = .ok (m.code.getD k 0) := if_pos h

/-! ## The handlers' shapes, with the stack indices in bounds -/

/-- The frame after `operand_stack[stack_size - k] = v`. -/
def Frame.setTop (fr : Frame) (k : Nat) (v : BitVec 32) : Frame :=
  { fr with operandStack := fr.operandStack.set (fr.stackSize - k).toNat v }

section Shapes

variable {fr : Frame} {k : Nat} {v : BitVec 32}

theorem peek_ok (h0 : 0 < k) (h1 : k ≤ fr.stackSize) (h2 : fr.stackSize ≤ fr.operandStack.length) :
    fr.peek k = .ok (fr.top k) := readSlot_ok (by omega) (by omega)

theorem poke_ok (h1 : k ≤ fr.stackSize) (h2 : fr.stackSize - k < fr.operandStack.length) :
    fr.poke k v = .ok (fr.setTop k v) := by
  rw [Frame.poke, writeSlot_ok (by omega) h2]; rfl

theorem stackHelp_ok (h1 : k ≤ fr.stackSize) (h2 : fr.stackSize - k < fr.operandStack.length) :
    stackHelp fr v k = .ok { fr.setTop k v with stackSize := fr.stackSize - k + 1 } := by
  rw [stackHelp, poke_ok h1 h2]; rfl

theorem push_ok (h1 : 0 ≤ fr.stackSize) (h2 : fr.stackSize < fr.operandStack.length) :
    fr.push v = .ok { fr.setTop 0 v with stackSize := fr.stackSize + 1 } := by
  rw [Frame.push, stackHelp_ok (by omega) (by omega)]; simp

theorem peek_eq_top (h : fr.peek k = .ok v) : v = fr.top k := (readSlot_eq_ok h).2.2

/-- What `operand_stack[stack_size - k] = v` wrote is what `operand_stack[stack_size - k]`
    reads back. -/
theorem poke_eq_ok {fr' : Frame} (h : fr.poke k v = .ok fr') : fr'.top k = v ∧ fr'.stackSize = fr.stackSize := by
  obtain ⟨s, hs, hfr⟩ := except_bind_eq_ok.1 h
  cases hfr
  obtain ⟨h0, hl, rfl⟩ := writeSlot_eq_ok hs
  have hi : (fr.stackSize - k).toNat < fr.operandStack.length := by omega
  exact ⟨by simp only [Frame.top, List.getD_eq_getElem?_getD, List.getElem?_set_self hi, Option.getD_some], rfl⟩

/-- `stack_help` leaves `v` on top. -/
theorem stackHelp_top {fr' : Frame} (h : stackHelp fr v k = .ok fr') : fr'.top 1 = v := by
  obtain ⟨p, hp, hfr⟩ := except_bind_eq_ok.1 h
  cases hfr
  obtain ⟨htop, hs⟩ := poke_eq_ok hp
  rw [← htop]
  simp only [Frame.top]
  congr 2
  omega

theorem binaryOp_ok {f : BitVec 32 → BitVec 32 → Except Fault (BitVec 32)} (h1 : 2 ≤ fr.stackSize)
    (h2 : fr.stackSize ≤ fr.operandStack.length) :
    binaryOp f fr = (f (fr.top 2) (fr.top 1)).map fun v =>
      { fr.setTop 2 v with stackSize := fr.stackSize - 1 } := by
  simp only [binaryOp, peek_ok (k := 2) (by omega) h1 h2, peek_ok (k := 1) (by omega) (by omega) h2]
  show (f (fr.top 2) (fr.top 1) >>= fun v => stackHelp fr v 2) = _
  cases f (fr.top 2) (fr.top 1) with
  | error e => rfl
  | ok a =>
    have h : fr.stackSize - (2 : Nat) + 1 = fr.stackSize - 1 := by omega
    exact (stackHelp_ok (k := 2) (by omega) (by omega)).trans (by rw [h]; rfl)

@[simp] theorem ok_bind {ε α β : Type} (a : α) (f : α → Except ε β) : (Except.ok a >>= f) = f a := rfl

theorem loadLocal_ok {i : Nat} (h1 : 0 ≤ fr.stackSize) (h2 : fr.stackSize < fr.operandStack.length) :
    loadLocal fr i = (readSlot fr.locals i .locals).map fun v =>
      { fr.setTop 0 v with stackSize := fr.stackSize + 1 } := by
  unfold loadLocal
  cases readSlot fr.locals i .locals with
  | error e => rfl
  | ok a => exact push_ok h1 h2

theorem storeLocal_ok {i : Nat} (h1 : 1 ≤ fr.stackSize) (h2 : fr.stackSize ≤ fr.operandStack.length) :
    storeLocal fr i = (writeSlot fr.locals i (fr.top 1) .locals).map fun l =>
      { fr with locals := l, stackSize := fr.stackSize - 1 } := by
  simp only [storeLocal, peek_ok (k := 1) (by omega) (by omega) h2]
  exact bind_ok_eq_map _ _

theorem ifCond_ok {m : Method} {p : BitVec 32 → Bool} (h1 : 1 ≤ fr.stackSize)
    (h2 : fr.stackSize ≤ fr.operandStack.length) :
    ifCond m p fr = (if p (fr.top 1) then branchTarget m fr.programCounter
      else .ok (fr.programCounter + 3)).map fun pc => { fr.drop 1 with programCounter := pc } := by
  simp only [ifCond, peek_ok (k := 1) (by omega) (by omega) h2, ok_bind]
  split <;> exact bind_ok_eq_map _ _

theorem ifCmp_ok {m : Method} {p : BitVec 32 → BitVec 32 → Bool} (h1 : 2 ≤ fr.stackSize)
    (h2 : fr.stackSize ≤ fr.operandStack.length) :
    ifCmp m p fr = (if p (fr.top 2) (fr.top 1) then branchTarget m fr.programCounter
      else .ok (fr.programCounter + 3)).map fun pc => { fr.drop 2 with programCounter := pc } := by
  simp only [ifCmp, peek_ok (k := 1) (by omega) (by omega) h2, peek_ok (k := 2) (by omega) h1 h2, ok_bind]
  split <;> exact bind_ok_eq_map _ _

end Shapes

@[simp] theorem advance_programCounter (fr : Frame) (k : Nat) :
    (fr.advance k).programCounter = fr.programCounter + k := rfl

@[simp] theorem advance_operandStack (fr : Frame) (k : Nat) :
    (fr.advance k).operandStack = fr.operandStack := rfl

@[simp] theorem advance_stackSize (fr : Frame) (k : Nat) : (fr.advance k).stackSize = fr.stackSize := rfl

@[simp] theorem advance_locals (fr : Frame) (k : Nat) : (fr.advance k).locals = fr.locals := rfl

@[simp] theorem advance_top (fr : Frame) (w k : Nat) : (fr.advance w).top k = fr.top k := rfl

@[simp] theorem drop_programCounter (fr : Frame) (k : Nat) :
    (fr.drop k).programCounter = fr.programCounter := rfl

@[simp] theorem drop_operandStack (fr : Frame) (k : Nat) : (fr.drop k).operandStack = fr.operandStack := rfl

@[simp] theorem drop_stackSize (fr : Frame) (k : Nat) : (fr.drop k).stackSize = fr.stackSize - k := rfl

@[simp] theorem drop_locals (fr : Frame) (k : Nat) : (fr.drop k).locals = fr.locals := rfl

end Cs24.Jvm
