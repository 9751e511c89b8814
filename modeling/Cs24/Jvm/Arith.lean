/-
  Cs24.Jvm.Arith — the arithmetic handlers of `execute` against the JVM's integer
  instructions.

  The eleven two-operand handlers share one shape: read `a` (second from the top) and `b`
  (the top), `assert` on `b` for the division and shift cases, evaluate a C `int`
  expression, and `stack_help` the result into `a`'s slot (`exec_binop`). `cBinop` is that
  expression, `jvmBinop` the JVM's result, and `Edge` the operands where the two part:
  signed overflow, a zero divisor, `INT32_MIN / -1`, a shift count outside [0, 32), a
  negative or overflowing left shift.

  Proved:
  - `exec_binop_spec`: off its edges each two-operand handler pushes the JVM's result; on
    an edge it faults.
  - `idiv_irem_overflow`: `INT32_MIN / -1` and `INT32_MIN % -1` pass the handlers'
    `assert(b != 0)` and overflow `int`: undefined, where the JVM gives `INT32_MIN` and 0.
  - `iadd_overflow`: `iadd` whose sum leaves the `int32_t` range is undefined, where the
    JVM wraps.
  - `exec_ineg`, `exec_iinc`: `ineg` is undefined exactly at `INT32_MIN`, `iinc` exactly
    where the sum overflows; elsewhere both are the JVM's.
-/

import Cs24.Jvm.Execute

namespace Cs24.Jvm

def intMin : BitVec 32 := BitVec.ofInt 32 (-2 ^ 31)

/-- The two-operand handlers. -/
def binops : List Opcode := [.iadd, .isub, .imul, .idiv, .irem, .ishl, .ishr, .iushr, .iand, .ior, .ixor]

/-- The C expression of the two-operand handler `op` on `a`, second from the top, and `b`, the
    top, after the handler's `assert`. -/
def cBinop : Opcode → BitVec 32 → BitVec 32 → Except Fault (BitVec 32)
  | .iadd, a, b => cAdd b a
  | .isub, a, b => cSub a b
  | .imul, a, b => cMul a b
  | .idiv, a, b => do assertThat (b ≠ 0); cDiv a b
  | .irem, a, b => do assertThat (b ≠ 0); cRem a b
  | .ishl, a, b => do assertThat (0 ≤ b.toInt); cShl a b
  | .ishr, a, b => do assertThat (0 ≤ b.toInt); cShr a b
  | .iushr, a, b => do assertThat (0 ≤ b.toInt); cUshr a b
  | .iand, a, b => .ok (a &&& b)
  | .ior, a, b => .ok (a ||| b)
  | .ixor, a, b => .ok (a ^^^ b)
  | _, _, _ => .error .assertion

/-- The JVM's result of the two-operand instruction `op` (JVMS §6.5). -/
def jvmBinop : Opcode → BitVec 32 → BitVec 32 → BitVec 32
  | .iadd, a, b => jvmAdd a b
  | .isub, a, b => jvmSub a b
  | .imul, a, b => jvmMul a b
  | .idiv, a, b => jvmDiv a b
  | .irem, a, b => jvmRem a b
  | .ishl, a, b => jvmShl a b
  | .ishr, a, b => jvmShr a b
  | .iushr, a, b => jvmUshr a b
  | .iand, a, b => a &&& b
  | .ior, a, b => a ||| b
  | .ixor, a, b => a ^^^ b
  | _, _, _ => 0

/-- The operands on which `cBinop op` is not the JVM's result: its C expression is undefined or its
    `assert` fails. -/
def Edge : Opcode → BitVec 32 → BitVec 32 → Prop
  | .iadd, a, b => ¬ InRange (a.toInt + b.toInt)
  | .isub, a, b => ¬ InRange (a.toInt - b.toInt)
  | .imul, a, b => ¬ InRange (a.toInt * b.toInt)
  | .idiv, a, b | .irem, a, b => b = 0 ∨ (a = intMin ∧ b = -1)
  | .ishl, a, b => ¬ (ShiftCount b ∧ 0 ≤ a.toInt ∧ InRange (a.toInt * 2 ^ b.toNat))
  | .ishr, _, b | .iushr, _, b => ¬ ShiftCount b
  | _, _, _ => False

/-- What a two-operand handler leaves: `v` in the second slot from the top, one slot fewer, and the
    next instruction. -/
def Frame.binResult (fr : Frame) (v : BitVec 32) : Frame :=
  ({ fr.setTop 2 v with stackSize := fr.stackSize - 1 } : Frame).advance 1

theorem sub_two_add_one (x : Int) : x - 2 + 1 = x - 1 := by omega

theorem exec_binop {cls : ClassFile} {callee : Method → List (BitVec 32) → Glob → Ending × Glob} {m : Method}
    {fr : Frame} {g : Glob} {op : Opcode} (hop : op ∈ binops) (h1 : 2 ≤ fr.stackSize)
    (h2 : fr.stackSize ≤ fr.operandStack.length) :
    exec cls callee m fr g op = (cBinop op (fr.top 2) (fr.top 1)).map fun v => .next (fr.binResult v) g := by
  simp only [binops, List.mem_cons, List.mem_nil_iff, or_false] at hop
  rcases hop with rfl | rfl | rfl | rfl | rfl | rfl | rfl | rfl | rfl | rfl | rfl <;>
  simp (disch := omega) [exec.eq_def, cBinop.eq_def, binaryOp_ok, peek_ok, stackHelp_ok, Frame.binResult, Function.comp_def, sub_two_add_one]


theorem intMin_toInt : intMin.toInt = -2 ^ 31 := by decide

theorem neg_one_toInt : (-1 : BitVec 32).toInt = -1 := by decide

theorem eq_intMin_iff {a : BitVec 32} : a = intMin ↔ a.toInt = -2 ^ 31 := by
  rw [← intMin_toInt, BitVec.toInt_inj]

theorem eq_neg_one_iff {a : BitVec 32} : a = -1 ↔ a.toInt = -1 := by
  rw [← neg_one_toInt, BitVec.toInt_inj]


/-- `a / b` and `a % b` are defined off the `idiv` edges. -/
theorem tdiv_inRange_of_not_edge {a b : BitVec 32} (hb : b ≠ 0) (h : ¬ (a = intMin ∧ b = -1)) :
    InRange (a.toInt.tdiv b.toInt) :=
  (tdiv_inRange_iff a (toInt_ne_zero hb)).2 fun ⟨ha, hb⟩ => h ⟨eq_intMin_iff.2 ha, eq_neg_one_iff.2 hb⟩

theorem cBinop_eq_jvm {op : Opcode} {a b : BitVec 32} (hop : op ∈ binops) (h : ¬ Edge op a b) :
    cBinop op a b = .ok (jvmBinop op a b) := by
  cases op <;> simp only [Edge, not_not, not_or] at h
  case iadd => rw [cBinop, cAdd, Int.add_comm, intResult_of_inRange h]; rfl
  case isub => exact cSub_eq_ok h
  case imul => exact cMul_eq_ok h
  case idiv => rw [cBinop, assertThat_of h.1, ok_bind, cDiv_eq_ok h.1 (tdiv_inRange_of_not_edge h.1 h.2)]; rfl
  case irem => rw [cBinop, assertThat_of h.1, ok_bind, cRem_eq_ok h.1 (tdiv_inRange_of_not_edge h.1 h.2)]; rfl
  case ishl => rw [cBinop, assertThat_of h.1.1, ok_bind, cShl_eq_ok h.1 h.2.1 h.2.2]; rfl
  case ishr => rw [cBinop, assertThat_of h.1, ok_bind, cShr_eq_ok h]; rfl
  case iushr => rw [cBinop, assertThat_of h.1, ok_bind, cUshr_eq_ok h]; rfl
  case iand | ior | ixor => rfl
  all_goals exact absurd hop (by decide)

/-- On an edge the handler faults: its `assert` fails or its C expression is undefined. -/
theorem cBinop_edge {op : Opcode} {a b : BitVec 32} (h : Edge op a b) : ∃ f, cBinop op a b = .error f := by
  cases op <;> simp only [Edge] at h
  case iadd => exact ⟨_, by rw [cBinop, cAdd, Int.add_comm, intResult_of_not_inRange h]⟩
  case isub => exact ⟨_, intResult_of_not_inRange h⟩
  case imul => exact ⟨_, intResult_of_not_inRange h⟩
  case idiv | irem =>
    rcases h with rfl | ⟨rfl, rfl⟩
    · exact ⟨_, by rw [cBinop, assertThat_of_not (by simp)]; rfl⟩
    · exact ⟨_, rfl⟩
  case ishl =>
    by_cases hb : 0 ≤ b.toInt
    · rw [cBinop, assertThat_of hb, ok_bind, cShl]
      split_ifs with hc
      · exact ⟨_, intResult_of_not_inRange fun hr => h ⟨hc.1, hc.2, hr⟩⟩
      · exact ⟨_, rfl⟩
    · exact ⟨_, by rw [cBinop, assertThat_of_not hb]; rfl⟩
  case ishr | iushr =>
    by_cases hb : 0 ≤ b.toInt
    · exact ⟨.undefined .shift, by simp only [cBinop, assertThat_of hb, ok_bind, cShr, cUshr, if_neg h]⟩
    · exact ⟨_, by rw [cBinop, assertThat_of_not hb]; rfl⟩

/-! ## The handlers -/

def emptyClass : ClassFile := ⟨[], []⟩

/-- A callee that never returns: the handlers below call none. -/
def noCall : Method → List (BitVec 32) → Glob → Ending × Glob := fun _ _ g => (.outOfFuel, g)

section Handlers

variable {cls : ClassFile} {callee : Method → List (BitVec 32) → Glob → Ending × Glob} {m : Method}
  {fr : Frame} {g : Glob}

/-- Off the edges a two-operand handler pushes the JVM's result; on one it faults. -/
theorem exec_binop_spec {op : Opcode} (hop : op ∈ binops) (h1 : 2 ≤ fr.stackSize)
    (h2 : fr.stackSize ≤ fr.operandStack.length) :
    (¬ Edge op (fr.top 2) (fr.top 1) →
      exec cls callee m fr g op = .ok (.next (fr.binResult (jvmBinop op (fr.top 2) (fr.top 1))) g)) ∧
    (Edge op (fr.top 2) (fr.top 1) → ∃ f, exec cls callee m fr g op = .error f) := by
  rw [exec_binop hop h1 h2]
  refine ⟨fun h => by rw [cBinop_eq_jvm hop h]; rfl, fun h => ?_⟩
  obtain ⟨f, hf⟩ := cBinop_edge h
  exact ⟨f, by rw [hf]; rfl⟩

/-- `-1` under `1`. -/
def negOneOverOne : Frame := ⟨0, [-1, 1], 2, []⟩

/-- The spec's `-1 >>> 1 = 2147483647`. -/
theorem iushr_negOne_one :
    exec emptyClass noCall ⟨[0x7c], 2, 0, 0, false⟩ negOneOverOne ⟨[], []⟩ .iushr =
      .ok (.next (negOneOverOne.binResult 0x7fffffff) ⟨[], []⟩) :=
  (exec_binop_spec (by decide) (by decide) (by decide)).1 (by simp only [Edge]; decide)

theorem idiv_irem_overflow (h1 : 2 ≤ fr.stackSize) (h2 : fr.stackSize ≤ fr.operandStack.length)
    (ha : fr.top 2 = intMin) (hb : fr.top 1 = -1) :
    exec cls callee m fr g .idiv = .error (.undefined .signedOverflow) ∧
      exec cls callee m fr g .irem = .error (.undefined .signedOverflow) := by
  rw [exec_binop (by decide) h1 h2, exec_binop (by decide) h1 h2, ha, hb]
  exact ⟨rfl, rfl⟩

/-- A frame holding `INT32_MIN` under `-1`. -/
def minOverNegOne : Frame := ⟨0, [intMin, -1], 2, []⟩

theorem minOverNegOne_overflow :
    exec emptyClass noCall ⟨[0x6c], 2, 0, 0, false⟩ minOverNegOne ⟨[], []⟩ .idiv =
      .error (.undefined .signedOverflow) ∧
    exec emptyClass noCall ⟨[0x6c], 2, 0, 0, false⟩ minOverNegOne ⟨[], []⟩ .irem =
      .error (.undefined .signedOverflow) :=
  idiv_irem_overflow (by decide) (by decide) rfl rfl

theorem iadd_overflow (h1 : 2 ≤ fr.stackSize) (h2 : fr.stackSize ≤ fr.operandStack.length)
    (h : ¬ InRange ((fr.top 2).toInt + (fr.top 1).toInt)) :
    exec cls callee m fr g .iadd = .error (.undefined .signedOverflow) := by
  rw [exec_binop (by decide) h1 h2, cBinop, cAdd, Int.add_comm, intResult_of_not_inRange h]
  rfl

theorem maxPlusOne_overflow :
    exec emptyClass noCall ⟨[0x60], 2, 0, 0, false⟩ ⟨0, [0x7fffffff, 1], 2, []⟩ ⟨[], []⟩ .iadd =
      .error (.undefined .signedOverflow) :=
  iadd_overflow (by decide) (by decide) (by decide)

theorem neg_inRange_iff (a : BitVec 32) : InRange (a.toInt * (-1 : BitVec 32).toInt) ↔ a ≠ intMin := by
  have := toInt_inRange a
  rw [neg_one_toInt, Ne, eq_intMin_iff]
  unfold InRange at *
  omega

/-- `ineg` negates the top in place, except `INT32_MIN * -1`, which overflows. -/
theorem exec_ineg (h1 : 1 ≤ fr.stackSize) (h2 : fr.stackSize ≤ fr.operandStack.length) :
    exec cls callee m fr g .ineg = if fr.top 1 = intMin then .error (.undefined .signedOverflow)
      else .ok (.next ((fr.setTop 1 (jvmNeg (fr.top 1))).advance 1) g) := by
  simp only [exec.eq_def, peek_ok (k := 1) (by omega) h1 h2, ok_bind, cMul]
  split_ifs with h
  · rw [intResult_of_not_inRange (by rw [neg_inRange_iff]; exact not_not.2 h)]; rfl
  · rw [intResult_of_inRange ((neg_inRange_iff _).2 h), ok_bind, poke_ok h1 (by push_cast; omega), neg_one_toInt,
      Int.mul_neg_one]
    rfl

/-- `iinc i b`: local `i` plus the sign-extended byte `b`, undefined where the sum overflows. -/
theorem exec_iinc (hpc : fr.programCounter + 2 < m.code.length)
    (hi : (m.code.getD (fr.programCounter + 1) 0).toNat < fr.locals.length) :
    exec cls callee m fr g .iinc =
      let i := (m.code.getD (fr.programCounter + 1) 0).toNat
      let v := (fr.locals.getD i 0).toInt + int8Of (m.code.getD (fr.programCounter + 2) 0)
      if InRange v then .ok (.next ({ fr with locals := fr.locals.set i (wrap v) }.advance 3) g)
      else .error (.undefined .signedOverflow) := by
  simp only [exec.eq_def, codeAt_ok (by omega : fr.programCounter + 1 < m.code.length), codeAt_ok hpc, ok_bind,
    readSlot_nat hi]
  split_ifs with h
  · rw [intResult_of_inRange h, ok_bind, writeSlot_nat hi]
    rfl
  · rw [intResult_of_not_inRange h]; rfl

end Handlers

end Cs24.Jvm
