import Zabbix.DbCache.History
import Zabbix.Lib.Printf

/-!
# Zabbix.Items.DbItem

The rows of the `items` table and `DB_ITEM`, as far as the storing of numeric
values depends on them: `DBget_item_from_db`, `DBmultiply_value_float` and
`DBmultiply_value_uint64` of `libs/zbxdbhigh/db.c`.

Values come as doubles or as 64 bit integers, and the code that stores them is
written once for each type.  `NumericOps` is what the two have in their places;
the arithmetic on doubles and the reading of numbers are those of the C
library, a parameter here.
-/

namespace Zabbix

open Printf

/-! ## rows and items -/

/-- `items.delta`: what is stored of a numeric value. -/
inductive ItemStore
  | asIs
  | speedPerSecond
  | simpleChange
deriving DecidableEq, Repr

/-- The columns of an `items` row.  The values are texts, as the statements
write them; `none` is NULL. -/
structure ItemsRow where
  delta : ItemStore
  history : Int32
  trends : Int32
  multiplier : Int32
  formula : List UInt8
  lastvalue : Option (List UInt8)
  prevvalue : Option (List UInt8)
  prevorgvalue : Option (List UInt8)
  lastclock : Option Int32
deriving DecidableEq

/-- The row with other last values. -/
def ItemsRow.setLast (row : ItemsRow) (lastvalue prevvalue : Option (List UInt8)) : ItemsRow :=
  { row with lastvalue := lastvalue, prevvalue := prevvalue }

/-- `DB_ITEM`: the previous original value is `none` when
`prevorgvalue_null` is set. -/
structure DbItem (α : Type) where
  delta : ItemStore
  history : Int32
  trends : Int32
  multiplier : Int32
  formula : List UInt8
  prevorgvalue : Option α
  lastclock : Int32

/-- `DBget_item_from_db`. -/
def dbGetItemFromDb {α : Type} (read : List UInt8 → α) (row : ItemsRow) : DbItem α :=
  { delta := row.delta
    history := row.history
    trends := row.trends
    multiplier := row.multiplier
    formula := row.formula
    prevorgvalue := row.prevorgvalue.map read
    lastclock := row.lastclock.getD 0 }

/-- What is read of an item does not depend on its last values. -/
@[simp] theorem dbGetItemFromDb_setLast {α : Type} (read : List UInt8 → α) (row : ItemsRow)
    (lastvalue prevvalue : Option (List UInt8)) :
    dbGetItemFromDb read (row.setLast lastvalue prevvalue) = dbGetItemFromDb read row := rfl

/-! ## arithmetic -/

/-- What the code takes from the C library and from the processor: `atof`,
`sscanf` with `ZBX_FS_UI64`, and the operations on doubles. -/
structure Clib where
  atof : List UInt8 → Double
  scanUi64 : List UInt8 → UInt64
  le : Double → Double → Bool
  sub : Double → Double → Double
  mul : Double → Double → Double
  divInt : Double → Int → Double
  ofUInt64 : UInt64 → Double
  toUInt64 : Double → UInt64

/-- The loop of `is_uint64`. -/
def isUint64Loop (value : UInt64) : List UInt8 → Option UInt64
  | [] => some value
  | c :: str =>
      if 48 ≤ c ∧ c ≤ 57 then
        if value ≤ (0xFFFFFFFFFFFFFFFF - (c - 48).toUInt64) / 10 then
          isUint64Loop (value * 10 + (c - 48).toUInt64) str
        else none
      else none

/-- `is_uint64`: the value of `str`, `none` on `FAIL`. -/
def isUint64 (str : List UInt8) : Option UInt64 := isUint64Loop 0 str

/-- `ITEM_MULTIPLIER_USE` -/
def itemMultiplierUse : Int32 := 1

/-- `DBmultiply_value_float` -/
def dbMultiplyValueFloat (clib : Clib) (item : DbItem Double) (value : Double) : Double :=
  if item.multiplier ≠ itemMultiplierUse then value
  else clib.mul value (clib.atof item.formula)

/-- `DBmultiply_value_uint64` -/
def dbMultiplyValueUint64 (clib : Clib) (item : DbItem UInt64) (value : UInt64) : UInt64 :=
  if item.multiplier ≠ itemMultiplierUse then value
  else
    match isUint64 item.formula with
    | some formula => value * formula
    | none => clib.toUInt64 (clib.mul (clib.ofUInt64 value) (clib.atof item.formula))

/-! ## the two value types -/

/-- A numeric value. -/
inductive NumericValue
  | float (value : Double)
  | uint64 (value : UInt64)
deriving DecidableEq

/-- `h->value` of a numeric entry of the history cache. -/
def HistoryValue.numeric {σ : Type} : HistoryValue Double σ → Option NumericValue
  | float _ value => some (.float value)
  | uint64 _ value => some (.uint64 value)
  | str _ | text _ | log .. => none

/-- What the branches of the two value types have in their places: the values
of an entry of the history cache, how a previous value is read and a value is
printed, comparison, subtraction, the division by a difference of clocks and
the multiplier. -/
structure NumericOps (α : Type) where
  value : α → NumericValue
  entry : α → α → HistoryValue Double (List UInt8)
  zero : α
  read : List UInt8 → α
  text : α → List UInt8
  le : α → α → Bool
  sub : α → α → α
  div : α → Int → α
  multiply : DbItem α → α → α
  numeric_entry : ∀ valueOrig v, (entry valueOrig v).numeric = some (value v)
  length_text_le : ∀ v, (text v).length ≤ 320

/-- `ITEM_VALUE_TYPE_FLOAT` -/
def floatOps (clib : Clib) : NumericOps Double :=
  { value := .float
    entry := .float
    zero := 0
    read := clib.atof
    text := lf
    le := clib.le
    sub := clib.sub
    div := clib.divInt
    multiply := dbMultiplyValueFloat clib
    numeric_entry := fun _ _ => rfl
    length_text_le := length_lf_le }

/-- `ITEM_VALUE_TYPE_UINT64`.  The difference of clocks is converted to the
type of the dividend. -/
def uint64Ops (clib : Clib) : NumericOps UInt64 :=
  { value := .uint64
    entry := .uint64
    zero := 0
    read := clib.scanUi64
    text := ui64
    le := fun a b => a ≤ b
    sub := fun a b => a - b
    div := fun a n => a / UInt64.ofInt n
    multiply := dbMultiplyValueUint64 clib
    numeric_entry := fun _ _ => rfl
    length_text_le := fun v => le_trans (length_ui64_le v) (by decide) }

/-- The test that the changes share: the previous original value, when there is
one and it is not above the new value. -/
def NumericOps.previous {α : Type} (ops : NumericOps α) (item : DbItem α) (value : α) : Option α :=
  item.prevorgvalue.filter fun prev => ops.le prev value

end Zabbix
