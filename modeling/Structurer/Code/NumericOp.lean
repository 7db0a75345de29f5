/-
**Numeric instructions.**

The instructions that only touch the operand stack: arithmetic, comparisons and conversions of the
four run-time types.
-/

import Structurer.ValueType

namespace Structurer

inductive NumericOp where
  | i32Add
  | i32Sub
  | i32Mul
  | i32And
  | i32Or
  | i32Xor
  | i32Eqz
  | i32Eq
  | i32Ne
  | i32LtS
  | i32LeS
  | i32GtS
  | i32GeS
  | i64Add
  | i64Sub
  | i64Mul
  | i64Eqz
  | i64Eq
  | i64Ne
  | i64LtS
  | i64LeS
  | i64GtS
  | i64GeS
  | f32Add
  | f32Sub
  | f32Mul
  | f64Add
  | f64Sub
  | f64Mul
  | i32WrapI64
  | i64ExtendI32S
  | f64PromoteF32
  | f32DemoteF64
  deriving DecidableEq, Repr

namespace NumericOp

def all : List NumericOp :=
  [.i32Add, .i32Sub, .i32Mul, .i32And, .i32Or, .i32Xor, .i32Eqz, .i32Eq, .i32Ne, .i32LtS, .i32LeS,
   .i32GtS, .i32GeS, .i64Add, .i64Sub, .i64Mul, .i64Eqz, .i64Eq, .i64Ne, .i64LtS, .i64LeS,
   .i64GtS, .i64GeS, .f32Add, .f32Sub, .f32Mul, .f64Add, .f64Sub, .f64Mul, .i32WrapI64,
   .i64ExtendI32S, .f64PromoteF32, .f32DemoteF64]

/-- The types an instruction pops, the top of the stack last. -/
def inputs : NumericOp → StackType
  | i32Add | i32Sub | i32Mul | i32And | i32Or | i32Xor => [.i32, .i32]
  | i32Eq | i32Ne | i32LtS | i32LeS | i32GtS | i32GeS => [.i32, .i32]
  | i32Eqz | i64ExtendI32S => [.i32]
  | i64Add | i64Sub | i64Mul => [.i64, .i64]
  | i64Eq | i64Ne | i64LtS | i64LeS | i64GtS | i64GeS => [.i64, .i64]
  | i64Eqz | i32WrapI64 => [.i64]
  | f32Add | f32Sub | f32Mul => [.f32, .f32]
  | f64Add | f64Sub | f64Mul => [.f64, .f64]
  | f64PromoteF32 => [.f32]
  | f32DemoteF64 => [.f64]

/-- The type an instruction pushes.  Comparisons push a 32-bit truth value. -/
def output : NumericOp → ValueType
  | i64Add | i64Sub | i64Mul | i64ExtendI32S => .i64
  | f32Add | f32Sub | f32Mul | f32DemoteF64 => .f32
  | f64Add | f64Sub | f64Mul | f64PromoteF32 => .f64
  | _ => .i32

/-- The comparison with the opposite truth value, if there is one. -/
def inverse : NumericOp → Option NumericOp
  | i32Eq => some i32Ne
  | i32Ne => some i32Eq
  | i32LtS => some i32GeS
  | i32GeS => some i32LtS
  | i32LeS => some i32GtS
  | i32GtS => some i32LeS
  | i64Eq => some i64Ne
  | i64Ne => some i64Eq
  | i64LtS => some i64GeS
  | i64GeS => some i64LtS
  | i64LeS => some i64GtS
  | i64GtS => some i64LeS
  | _ => none

def mnemonic : NumericOp → String
  | i32Add => "i32.add"
  | i32Sub => "i32.sub"
  | i32Mul => "i32.mul"
  | i32And => "i32.and"
  | i32Or => "i32.or"
  | i32Xor => "i32.xor"
  | i32Eqz => "i32.eqz"
  | i32Eq => "i32.eq"
  | i32Ne => "i32.ne"
  | i32LtS => "i32.lt_s"
  | i32LeS => "i32.le_s"
  | i32GtS => "i32.gt_s"
  | i32GeS => "i32.ge_s"
  | i64Add => "i64.add"
  | i64Sub => "i64.sub"
  | i64Mul => "i64.mul"
  | i64Eqz => "i64.eqz"
  | i64Eq => "i64.eq"
  | i64Ne => "i64.ne"
  | i64LtS => "i64.lt_s"
  | i64LeS => "i64.le_s"
  | i64GtS => "i64.gt_s"
  | i64GeS => "i64.ge_s"
  | f32Add => "f32.add"
  | f32Sub => "f32.sub"
  | f32Mul => "f32.mul"
  | f64Add => "f64.add"
  | f64Sub => "f64.sub"
  | f64Mul => "f64.mul"
  | i32WrapI64 => "i32.wrap_i64"
  | i64ExtendI32S => "i64.extend_i32_s"
  | f64PromoteF32 => "f64.promote_f32"
  | f32DemoteF64 => "f32.demote_f64"

def ofMnemonic? (text : String) : Option NumericOp :=
  all.find? (·.mnemonic == text)

theorem mem_all (op : NumericOp) : op ∈ all := by
  cases op <;> decide

end NumericOp

end Structurer
