import Zabbix.Atoi
import Zabbix.DbCache.History
import Zabbix.Lib.Nearest
import Mathlib.Algebra.Order.Field.Rat
import Mathlib.Data.UInt

/-!
# Zabbix.DbCache.Trend

The trends of `libs/zbxdbcache/dbcache.c`: for each item the cache aggregates
the values of one hour and one value type, in an array sorted by item, and
writes an aggregate to the trend tables when the hour or the type changes or
when the cache is synced; there it is merged with what the row already holds.

Doubles are exact rationals, the columns of `trends_uint` take 64 bits, and what
is read from them goes through `atoll`.  `trends` and `trends_uint` are one table
here, with the value type in the key; the statements are taken for what they say,
and those of a batch are executed at its end, after all its `select`s.
-/

namespace Zabbix

/-! ## rows -/

/-- The value types that have trends. -/
inductive TrendType
  | float
  | uint64
deriving DecidableEq, Repr

/-- The values of a type. -/
abbrev TrendType.Val : TrendType → Type
  | float => ℚ
  | uint64 => UInt64

/-- The arithmetic of averages: a value times a number of values, and a value
divided by one. -/
class TrendArith (α : Type) where
  mulNum : ℕ → α → α
  divNum : α → ℕ → α

instance : TrendArith ℚ where
  mulNum n a := n * a
  divNum a n := a / n

/-- The number of values is converted to the type of the values. -/
instance : TrendArith UInt64 where
  mulNum n a := UInt64.ofNat n * a
  divNum a n := a / UInt64.ofNat n

instance (ty : TrendType) : LinearOrder ty.Val :=
  match ty with
  | .float => inferInstanceAs (LinearOrder ℚ)
  | .uint64 => inferInstanceAs (LinearOrder UInt64)

instance (ty : TrendType) : Zero ty.Val :=
  match ty with
  | .float => inferInstanceAs (Zero ℚ)
  | .uint64 => inferInstanceAs (Zero UInt64)

instance (ty : TrendType) : Add ty.Val :=
  match ty with
  | .float => inferInstanceAs (Add ℚ)
  | .uint64 => inferInstanceAs (Add UInt64)

instance (ty : TrendType) : TrendArith ty.Val :=
  match ty with
  | .float => inferInstanceAs (TrendArith ℚ)
  | .uint64 => inferInstanceAs (TrendArith UInt64)

/-- `num`, `value_min`, `value_avg` and `value_max`: of a row, and of a
`ZBX_DC_TREND`. -/
structure TrendRow (α : Type) where
  num : ℕ
  valueMin : α
  valueAvg : α
  valueMax : α
deriving DecidableEq

namespace TrendRow

variable {α : Type} [LinearOrder α] [Zero α] [Add α] [TrendArith α]

/-- What `memset` leaves. -/
def zero : TrendRow α := { num := 0, valueMin := 0, valueAvg := 0, valueMax := 0 }

/-- The row of one value. -/
def single (value : α) : TrendRow α :=
  { num := 1, valueMin := value, valueAvg := value, valueMax := value }

/-- One more value, as `DCadd_trend` adds it. -/
def add (t : TrendRow α) (value : α) : TrendRow α :=
  { num := t.num + 1
    valueMin := if t.num = 0 ∨ value < t.valueMin then value else t.valueMin
    valueAvg := TrendArith.divNum (TrendArith.mulNum t.num t.valueAvg + value) (t.num + 1)
    valueMax := if t.num = 0 ∨ t.valueMax < value then value else t.valueMax }

/-- An aggregate with the row that is in the table, as `DCflush_trend` merges
them. -/
def merge (t row : TrendRow α) : TrendRow α :=
  { num := t.num + row.num
    valueMin := if row.valueMin < t.valueMin then row.valueMin else t.valueMin
    valueAvg :=
      TrendArith.divNum
        (TrendArith.mulNum t.num t.valueAvg + TrendArith.mulNum row.num row.valueAvg)
        (t.num + row.num)
    valueMax := if t.valueMax < row.valueMax then row.valueMax else t.valueMax }

/-- A row with one more value, as `DBadd_trend` updates it. -/
def update (row : TrendRow α) (value : α) : TrendRow α :=
  { num := row.num + 1
    valueMin := if value < row.valueMin then value else row.valueMin
    valueAvg := TrendArith.divNum (TrendArith.mulNum row.num row.valueAvg + value) (row.num + 1)
    valueMax := if row.valueMax < value then value else row.valueMax }

end TrendRow

/-- What is read of a value in a column: `atof`, or `zbx_atoui64` of its digits. -/
def TrendType.read : (ty : TrendType) → ty.Val → ty.Val
  | float, value => value
  | uint64, value => UInt64.ofNat (zbxAtoui64 (Printf.dec value.toNat))

/-- A row as it is read. -/
def TrendRow.read {ty : TrendType} (row : TrendRow ty.Val) : TrendRow ty.Val :=
  { num := row.num
    valueMin := ty.read row.valueMin
    valueAvg := ty.read row.valueAvg
    valueMax := ty.read row.valueMax }

/-! ## the tables -/

/-- A table, `trends` or `trends_uint`, and the key of one of its rows. -/
structure TrendKey where
  valueType : TrendType
  itemid : UInt64
  clock : Int32
deriving DecidableEq

/-- The trend tables. -/
abbrev TrendDb : Type := (k : TrendKey) → Option (TrendRow k.valueType.Val)

/-- The statements of `DCflush_trend`. -/
inductive TrendStatement
  | update (k : TrendKey) (row : TrendRow k.valueType.Val)
  | insert (k : TrendKey) (row : TrendRow k.valueType.Val)

/-- Execute a statement.  An update of a row that is not there does nothing;
`none` when a row to be inserted is there. -/
def TrendStatement.execute (db : TrendDb) : TrendStatement → Option TrendDb
  | update k row => some (if (db k).isSome then Function.update db k (some row) else db)
  | insert k row => if (db k).isSome then none else some (Function.update db k (some row))

/-- `DBexecute` of several statements: it ends at the first that fails. -/
def executeTrends (db : TrendDb) : List TrendStatement → TrendDb
  | [] => db
  | s :: sql =>
      match s.execute db with
      | none => db
      | some db => executeTrends db sql

/-! ## the cache -/

/-- A numeric value on its way to the trends. -/
structure TrendSample where
  itemid : UInt64
  clock : Int32
  valueType : TrendType
  value : valueType.Val

/-- The hour of a clock. -/
def hourOf (clock : Int32) : Int32 := clock - clock % 3600

/-- The row that a value belongs to. -/
abbrev TrendSample.key (s : TrendSample) : TrendKey := ⟨s.valueType, s.itemid, hourOf s.clock⟩

/-- `ZBX_DC_TREND` -/
structure ZbxDcTrend where
  itemid : UInt64
  clock : Int32
  valueType : TrendType
  row : TrendRow valueType.Val

/-- The row that an aggregate belongs to. -/
abbrev ZbxDcTrend.key (t : ZbxDcTrend) : TrendKey := ⟨t.valueType, t.itemid, t.clock⟩

/-- `ZBX_TREND_SIZE` -/
def zbxTrendSize : ℕ := 100000

/-- `DCget_trend_nearestindex` -/
def dcGetTrendNearestindex (trends : List ZbxDcTrend) (itemid : UInt64) : ℕ :=
  Nearest.nearest ZbxDcTrend.itemid itemid trends

/-- A new aggregate; a zeroed `value_type` is `ITEM_VALUE_TYPE_FLOAT`. -/
def newTrend (itemid : UInt64) : ZbxDcTrend :=
  { itemid := itemid, clock := 0, valueType := .float, row := .zero }

/-- `DCget_trend`: the index of the aggregate of an item and the array, `none`
when the array is full. -/
def dcGetTrend (trends : List ZbxDcTrend) (itemid : UInt64) : Option (ℕ × List ZbxDcTrend) :=
  let index := dcGetTrendNearestindex trends itemid
  if (trends[index]?.map ZbxDcTrend.itemid) = some itemid then some (index, trends)
  else if trends.length = zbxTrendSize then none
  else some (index, trends.take index ++ newTrend itemid :: trends.drop index)

/-- `DCflush_trend`: the statement, and the emptied aggregate. -/
def dcFlushTrend (db : TrendDb) (t : ZbxDcTrend) : TrendStatement × ZbxDcTrend :=
  (match db t.key with
    | some row => .update t.key (t.row.merge row.read)
    | none => .insert t.key t.row,
    { t with clock := 0, row := .zero })

/-- The aggregate under a value type: an empty one is zero under any type. -/
def ZbxDcTrend.rowAs (t : ZbxDcTrend) (ty : TrendType) : TrendRow ty.Val :=
  if h : t.valueType = ty then h ▸ t.row else .zero

/-- Add a value to an aggregate of its hour and type, or to an empty one. -/
def ZbxDcTrend.take (t : ZbxDcTrend) (s : TrendSample) : ZbxDcTrend :=
  { t with clock := hourOf s.clock, valueType := s.valueType, row := (t.rowAs s.valueType).add s.value }

/-- `DCadd_trend`: the array and the statement of a flush.  With a full array
the source flushes through a null pointer; this is `none` here. -/
def dcAddTrend (db : TrendDb) (trends : List ZbxDcTrend) (s : TrendSample) :
    Option (List ZbxDcTrend × List TrendStatement) :=
  (dcGetTrend trends s.itemid).bind fun (index, trends) =>
    trends[index]?.map fun t =>
      if 0 < t.row.num ∧ (t.clock ≠ hourOf s.clock ∨ t.valueType ≠ s.valueType) then
        let (sql, t) := dcFlushTrend db t
        (trends.set index (t.take s), [sql])
      else (trends.set index (t.take s), [])

/-- The tests of `DCmass_update_trends` and the value that it hands over. -/
def trendSample (h : Sample ℚ) : Option TrendSample :=
  if h.keepTrends = 0 then none
  else
    match h.value with
    | .float _ value =>
        if h.valueNull then none
        else some { itemid := h.itemid, clock := h.clock, valueType := .float, value := value }
    | .uint64 _ value =>
        if h.valueNull then none
        else some { itemid := h.itemid, clock := h.clock, valueType := .uint64, value := value }
    | _ => none

/-- The loop of `DCmass_update_trends`. -/
def massUpdateLoop (db : TrendDb) :
    List TrendSample → List ZbxDcTrend × List TrendStatement →
      Option (List ZbxDcTrend × List TrendStatement)
  | [], r => some r
  | s :: ss, (trends, sql) =>
      (dcAddTrend db trends s).bind fun r => massUpdateLoop db ss (r.1, sql ++ r.2)

/-- The cache and the tables. -/
structure TrendState where
  trends : List ZbxDcTrend
  db : TrendDb

/-- `DCmass_update_trends` -/
def dcMassUpdateTrends (w : TrendState) (history : List (Sample ℚ)) : Option TrendState :=
  (massUpdateLoop w.db (history.filterMap trendSample) (w.trends, [])).map fun r =>
    { trends := r.1, db := executeTrends w.db r.2 }

/-- `DCsync_trends` -/
def dcSyncTrends (w : TrendState) : TrendState :=
  { trends := [], db := executeTrends w.db (w.trends.map fun t => (dcFlushTrend w.db t).1) }

/-- What happens to the trends. -/
inductive TrendOp
  | batch (history : List (Sample ℚ))
  | sync

/-- One operation. -/
def TrendState.step (w : TrendState) : TrendOp → Option TrendState
  | .batch history => dcMassUpdateTrends w history
  | .sync => some (dcSyncTrends w)

/-- A run of operations. -/
def trendRun : TrendState → List TrendOp → Option TrendState
  | w, [] => some w
  | w, op :: ops => (w.step op).bind fun w => trendRun w ops

/-! ## one by one -/

/-- `DBadd_trend` and `DBadd_trend_uint`. -/
def dbAddTrend (db : TrendDb) (s : TrendSample) : TrendDb :=
  match db s.key with
  | some row => Function.update db s.key (some (row.read.update s.value))
  | none => Function.update db s.key (some (.single s.value))

end Zabbix
