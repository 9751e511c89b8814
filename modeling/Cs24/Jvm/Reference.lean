/-
  Cs24.Jvm.Reference — the interpreter of spec §4.1, written from the spec, to hold
  `execute` against.

  The operand stack is a list, top first, that may grow to `max_stack`; the locals are a
  list of slots; a heap array is the list of its elements, as many as the `int32_t` count
  in its slot 0 can say. Each instruction pops its operands, computes on their values and
  pushes its result. Where the spec gives no result the reference stops (`Stop`):
  - `fatal` for what §4.1 and §7 make fatal: a stack underflow or overflow, a local slot
    outside the array, a zero divisor, a negative shift amount, a negative array length,
    a call that does not resolve, a byte that is no instruction, a branch or a fall
    through out of the code;
  - `edge` for what C leaves undefined: an `int32_t` result out of range (`INT32_MIN / -1`
    and `INT32_MIN % -1` among them), a shift amount of 32 or more, a negative left
    operand of `ishl`, an array whose length slot `count + 1` does not fit, an index
    outside an array, a handle no allocation returned.
  Fuel is counted as `run` counts it: a unit a pass of the loop, and a callee runs on
  what is left.
-/

import Cs24.Jvm.Execute

namespace Cs24.Jvm.Ref

/-- Why the reference has no result. -/
inductive Stop where
  /-- The spec's fatal fault: the engine aborts. -/
  | fatal
  /-- An operation C leaves undefined. -/
  | edge
  deriving DecidableEq, Repr

/-- One invocation: its program counter, operand stack (top first) and locals. -/
structure Frame where
  pc : Nat
  stack : List (BitVec 32)
  locals : List (BitVec 32)
  deriving DecidableEq, Repr

/-- A heap array: its elements, fewer than an `int32_t` count can exceed. -/
structure IntArray where
  elems : List (BitVec 32)
  fits : elems.length < 2 ^ 31

/-- The heap, in allocation order, and the lines printed so far. -/
structure Glob where
  heap : List IntArray
  out : List (BitVec 32)

inductive Outcome where
  | returned (v : Option (BitVec 32))
  | stopped (s : Stop)
  | outOfFuel
  deriving DecidableEq, Repr

inductive Next where
  | next (f : Frame) (g : Glob)
  | done (o : Outcome) (g : Glob)

def check (c : Prop) [Decidable c] (s : Stop) : Except Stop Unit := if c then .ok () else .error s

@[simp] theorem check_eq_ok {c : Prop} [Decidable c] {s : Stop} {u : Unit} : check c s = .ok u ↔ c := by
  unfold check; split <;> simp_all

def byteAt (m : Method) (k : Nat) : Except Stop UInt8 :=
  match m.code[k]? with
  | some b => .ok b
  | none => .error .fatal

theorem byteAt_eq_ok {m : Method} {k : Nat} {b : UInt8} : byteAt m k = .ok b ↔ m.code[k]? = some b := by
  unfold byteAt; cases m.code[k]? <;> simp

def int32 (x : Int) : Except Stop (BitVec 32) :=
  if InRange x then .ok (BitVec.ofInt 32 x) else .error .edge

theorem int32_eq_ok {x : Int} {v : BitVec 32} : int32 x = .ok v ↔ InRange x ∧ BitVec.ofInt 32 x = v := by
  unfold int32; split <;> simp_all

/-- The integer literal at the 1-based pool index `i`. -/
def poolConstant (cls : ClassFile) (i : Nat) : Except Stop (BitVec 32) :=
  if i = 0 then .error .fatal
  else match cls.constantPool[i - 1]? with
    | some (.integer v) => .ok v
    | _ => .error .fatal

/-- The target of a branch at `pc`: the opcode's own position plus the big-endian 16-bit
    offset that follows it, sign-extended; it must lie in the code. -/
def branchTo (m : Method) (pc : Nat) : Except Stop Nat := do
  let b1 ← byteAt m (pc + 1)
  let b2 ← byteAt m (pc + 2)
  let t := (pc : Int) + (BitVec.ofNat 16 (b1.toNat * 256 + b2.toNat)).toInt
  if 0 ≤ t ∧ t < m.code.length then .ok t.toNat else .error .fatal

def iconstValue : Opcode → BitVec 32
  | .iconst_m1 => -1
  | .iconst_0 => 0
  | .iconst_1 => 1
  | .iconst_2 => 2
  | .iconst_3 => 3
  | .iconst_4 => 4
  | .iconst_5 => 5
  | _ => 0

def localSlot : Opcode → Nat
  | .iload_1 | .aload_1 | .istore_1 | .astore_1 => 1
  | .iload_2 | .aload_2 | .istore_2 | .astore_2 => 2
  | .iload_3 | .aload_3 | .istore_3 | .astore_3 => 3
  | _ => 0

/-- `a OP b`, `b` the operand on top. -/
def arith : Opcode → BitVec 32 → BitVec 32 → Except Stop (BitVec 32)
  | .iadd, a, b => int32 (a.toInt + b.toInt)
  | .isub, a, b => int32 (a.toInt - b.toInt)
  | .imul, a, b => int32 (a.toInt * b.toInt)
  | .idiv, a, b => do
      check (b.toInt ≠ 0) .fatal
      int32 (a.toInt.tdiv b.toInt)
  | .irem, a, b => do
      check (b.toInt ≠ 0) .fatal
      check (¬ (a.toInt = -2 ^ 31 ∧ b.toInt = -1)) .edge
      .ok (BitVec.ofInt 32 (a.toInt.tmod b.toInt))
  | .ishl, a, b => do
      check (0 ≤ b.toInt) .fatal
      check (b.toInt < 32 ∧ 0 ≤ a.toInt) .edge
      int32 (a.toInt * 2 ^ b.toNat)
  | .ishr, a, b => do
      check (0 ≤ b.toInt) .fatal
      check (b.toInt < 32) .edge
      .ok (a.sshiftRight b.toNat)
  | .iushr, a, b => do
      check (0 ≤ b.toInt) .fatal
      check (b.toInt < 32) .edge
      .ok (a >>> b.toNat)
  | .iand, a, b => .ok (a &&& b)
  | .ior, a, b => .ok (a ||| b)
  | .ixor, a, b => .ok (a ^^^ b)
  | _, _, _ => .error .fatal

def zeroTest : Opcode → Int → Bool
  | .ifeq, a => a = 0
  | .ifne, a => a ≠ 0
  | .iflt, a => a < 0
  | .ifge, a => 0 ≤ a
  | .ifgt, a => 0 < a
  | .ifle, a => a ≤ 0
  | _, _ => false

/-- The test `a OP b` of a two-operand branch, `b` the operand on top. -/
def cmpTest : Opcode → Int → Int → Bool
  | .if_icmpeq, a, b => a = b
  | .if_icmpne, a, b => a ≠ b
  | .if_icmplt, a, b => a < b
  | .if_icmpge, a, b => a ≥ b
  | .if_icmpgt, a, b => a > b
  | .if_icmple, a, b => a ≤ b
  | _, _, _ => false

namespace Frame

variable (f : Frame) (m : Method)

def advance (w : Nat) : Frame := { f with pc := f.pc + w }

def pop : Except Stop (BitVec 32 × Frame) :=
  match f.stack with
  | v :: s => .ok (v, { f with stack := s })
  | [] => .error .fatal

/-- A push may fill the stack up to `max_stack`. -/
def push (v : BitVec 32) : Except Stop Frame :=
  if f.stack.length < m.maxStack then .ok { f with stack := v :: f.stack } else .error .fatal

def slot (i : Nat) : Except Stop (BitVec 32) :=
  match f.locals[i]? with
  | some v => .ok v
  | none => .error .fatal

def setSlot (i : Nat) (v : BitVec 32) : Except Stop (List (BitVec 32)) :=
  if i < f.locals.length then .ok (f.locals.set i v) else .error .fatal

def load (i : Nat) : Except Stop Frame := do
  f.push m (← f.slot i)

def store (i : Nat) : Except Stop Frame := do
  let (v, f) ← f.pop
  pure { f with locals := ← f.setSlot i v }

/-- A two-operand instruction: pop `b`, then `a`; push `a OP b`. -/
def binop (op : Opcode) : Except Stop Frame := do
  let (b, f) ← f.pop
  let (a, f) ← f.pop
  f.push m (← arith op a b)

/-- Jump to the branch target when `c`; fall through past the two offset bytes otherwise. -/
def branch (c : Bool) : Except Stop Frame :=
  if c then (branchTo m f.pc).map fun pc => { f with pc := pc } else .ok (f.advance 3)

def ifZero (op : Opcode) : Except Stop Frame := do
  let (a, f) ← f.pop
  f.branch m (zeroTest op a.toInt)

/-- A two-operand branch: pop `b`, then `a`; test `a OP b`. -/
def ifCmp (op : Opcode) : Except Stop Frame := do
  let (b, f) ← f.pop
  let (a, f) ← f.pop
  f.branch m (cmpTest op a.toInt b.toInt)

variable {f} {m} {v : BitVec 32} {s : List (BitVec 32)}

theorem pop_of_cons (h : f.stack = v :: s) : f.pop = .ok (v, { f with stack := s }) := by
  simp [pop, h]

theorem pop_of_nil (h : f.stack = []) : f.pop = .error .fatal := by
  simp [pop, h]

@[simp] theorem pop_mk_cons {pc : Nat} {l : List (BitVec 32)} : (⟨pc, v :: s, l⟩ : Frame).pop = .ok (v, ⟨pc, s, l⟩) :=
  rfl

@[simp] theorem pop_mk_nil {pc : Nat} {l : List (BitVec 32)} : (⟨pc, [], l⟩ : Frame).pop = .error .fatal := rfl

theorem push_eq_ok {f' : Frame} :
    f.push m v = .ok f' ↔ f.stack.length < m.maxStack ∧ { f with stack := v :: f.stack } = f' := by
  unfold push; split <;> simp_all

theorem slot_eq_ok {i : Nat} : f.slot i = .ok v ↔ f.locals[i]? = some v := by
  unfold slot; cases f.locals[i]? <;> simp

theorem setSlot_eq_ok {i : Nat} {l : List (BitVec 32)} :
    f.setSlot i v = .ok l ↔ i < f.locals.length ∧ f.locals.set i v = l := by
  unfold setSlot; split <;> simp_all

end Frame

/-! ## The heap -/

/-- The array a handle names: a handle some allocation returned. -/
def deref (g : Glob) (h : BitVec 32) : Except Stop IntArray :=
  if 0 ≤ h.toInt then
    match g.heap[h.toNat]? with
    | some a => .ok a
    | none => .error .edge
  else .error .edge

namespace IntArray

def zeros (count : BitVec 32) (h : 0 ≤ count.toInt ∧ count.toInt < 2 ^ 31 - 1) : IntArray :=
  ⟨List.replicate count.toNat 0, by have := toNat_eq_toInt h.1; simp only [List.length_replicate]; omega⟩

def get (a : IntArray) (i : BitVec 32) : Except Stop (BitVec 32) :=
  if 0 ≤ i.toInt ∧ i.toInt < a.elems.length then .ok (a.elems.getD i.toNat 0) else .error .edge

def set (a : IntArray) (i v : BitVec 32) : Except Stop IntArray :=
  if 0 ≤ i.toInt ∧ i.toInt < a.elems.length then
    .ok ⟨a.elems.set i.toNat v, by simpa only [List.length_set] using a.fits⟩
  else .error .edge

end IntArray

/-! ## One instruction -/

section Exec

variable (cls : ClassFile) (callee : Method → List (BitVec 32) → Glob → Outcome × Glob)
  (m : Method) (f : Frame) (g : Glob)

/-- A static call: the callee's `max_locals` slots take the top `parameters` values, the
    first pushed in slot 0, and zeros; its value, if any, is pushed. -/
def invoke : Except Stop Next := do
  let b1 ← byteAt m (f.pc + 1)
  let b2 ← byteAt m (f.pc + 2)
  let some meth := findMethodFromIndex (b1.toNat * 256 + b2.toNat) cls | .error .fatal
  let k := meth.parameters
  check (k ≤ f.stack.length ∧ k ≤ meth.maxLocals) .fatal
  let args := (f.stack.take k).reverse ++ List.replicate (meth.maxLocals - k) 0
  let f := { f with stack := f.stack.drop k }
  match callee meth args g with
  | (.returned none, g') => pure (.next (f.advance 3) g')
  | (.returned (some v), g') => do pure (.next ((← f.push m v).advance 3) g')
  | (o, g') => pure (.done o g')

/-- `newarray`: pop the count; push the handle of a new array of that many zeros. -/
def newarray : Except Stop Next := do
  let (count, f) ← f.pop
  check (0 ≤ count.toInt) .fatal
  if h : 0 ≤ count.toInt ∧ count.toInt < 2 ^ 31 - 1 then
    let f ← f.push m (BitVec.ofNat 32 g.heap.length)
    pure (.next (f.advance 2) { g with heap := g.heap ++ [IntArray.zeros count h] })
  else .error .edge

def iastore : Except Stop Next := do
  let (v, f) ← f.pop
  let (i, f) ← f.pop
  let (h, f) ← f.pop
  let a ← (← deref g h).set i v
  pure (.next (f.advance 1) { g with heap := g.heap.set h.toNat a })

def exec (op : Opcode) : Except Stop Next :=
  let go (w : Nat) (x : Except Stop Frame) : Except Stop Next := x.map fun f => .next (f.advance w) g
  match op with
  | .nop => go 1 (pure f)
  | .iconst_m1 | .iconst_0 | .iconst_1 | .iconst_2 | .iconst_3 | .iconst_4 | .iconst_5 =>
      go 1 (f.push m (iconstValue op))
  | .bipush => do go 2 (f.push m ((BitVec.ofNat 8 (← byteAt m (f.pc + 1)).toNat).signExtend 32))
  | .sipush => do
      let b1 ← byteAt m (f.pc + 1)
      let b2 ← byteAt m (f.pc + 2)
      go 3 (f.push m ((BitVec.ofNat 16 (b1.toNat * 256 + b2.toNat)).signExtend 32))
  | .ldc => do go 2 (f.push m (← poolConstant cls (← byteAt m (f.pc + 1)).toNat))
  | .iload | .aload => do go 2 (f.load m (← byteAt m (f.pc + 1)).toNat)
  | .iload_0 | .iload_1 | .iload_2 | .iload_3 | .aload_0 | .aload_1 | .aload_2 | .aload_3 =>
      go 1 (f.load m (localSlot op))
  | .istore | .astore => do go 2 (f.store (← byteAt m (f.pc + 1)).toNat)
  | .istore_0 | .istore_1 | .istore_2 | .istore_3 | .astore_0 | .astore_1 | .astore_2 | .astore_3 =>
      go 1 (f.store (localSlot op))
  | .iinc => do
      let i ← byteAt m (f.pc + 1)
      let c ← byteAt m (f.pc + 2)
      let v ← int32 ((← f.slot i.toNat).toInt + (BitVec.ofNat 8 c.toNat).toInt)
      pure (.next ({ f with locals := ← f.setSlot i.toNat v }.advance 3) g)
  | .iadd | .isub | .imul | .idiv | .irem | .ishl | .ishr | .iushr | .iand | .ior | .ixor =>
      go 1 (f.binop m op)
  | .ineg => go 1 do
      let (a, f) ← f.pop
      f.push m (← int32 (-a.toInt))
  | .dup => go 1 do
      let (v, _) ← f.pop
      f.push m v
  | .ifeq | .ifne | .iflt | .ifge | .ifgt | .ifle => (f.ifZero m op).map (.next · g)
  | .if_icmpeq | .if_icmpne | .if_icmplt | .if_icmpge | .if_icmpgt | .if_icmple =>
      (f.ifCmp m op).map (.next · g)
  | .goto => do pure (.next { f with pc := ← branchTo m f.pc } g)
  | .ireturn | .areturn => do
      let (v, _) ← f.pop
      pure (.done (.returned (some v)) g)
  | .return_ => pure (.done (.returned none) g)
  | .getstatic => go 3 (pure f)
  | .invokevirtual => do
      let (v, f) ← f.pop
      pure (.next (f.advance 3) { g with out := g.out ++ [v] })
  | .invokestatic => invoke cls callee m f g
  | .newarray => newarray m f g
  | .arraylength => go 1 do
      let (h, f) ← f.pop
      f.push m (BitVec.ofNat 32 (← deref g h).elems.length)
  | .iaload => go 1 do
      let (i, f) ← f.pop
      let (h, f) ← f.pop
      f.push m (← (← deref g h).get i)
  | .iastore => iastore f g

/-- One instruction: decode the byte at the program counter and run it. -/
def step : Except Stop Next := do
  let some op := Opcode.ofByte (← byteAt m f.pc) | .error .fatal
  exec cls callee m f g op

variable {cls} {callee} {m} {f} {g}

/-- A step that goes anywhere read an instruction inside the code. -/
theorem step_pc {r : Next} (h : step cls callee m f g = .ok r) : f.pc < m.code.length := by
  obtain ⟨b, hb, -⟩ := except_bind_eq_ok.1 h
  exact (List.getElem?_eq_some_iff.1 (byteAt_eq_ok.1 hb)).1

end Exec

/-- At most `n` instructions of `m` from `f`, a callee's included. -/
def run (cls : ClassFile) : Nat → Method → Frame → Glob → Outcome × Glob
  | 0, _, _, g => (.outOfFuel, g)
  | n + 1, m, f, g =>
    match step cls (fun m' l g' => run cls n m' ⟨0, [], l⟩ g') m f g with
    | .error s => (.stopped s, g)
    | .ok (.next f' g') => run cls n m f' g'
    | .ok (.done o g') => (o, g')

def execute (cls : ClassFile) (n : Nat) (m : Method) (locals : List (BitVec 32)) (g : Glob) :
    Outcome × Glob :=
  run cls n m ⟨0, [], locals⟩ g

end Cs24.Jvm.Ref
