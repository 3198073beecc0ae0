import Zabbix.DbCache.MassStored
import Zabbix.Items.DbItem

/-!
# Zabbix.Items.Update

The two ways in which the server takes a numeric value of an item: at once,
by `add_history` and `update_item` of `libs/zbxserver/functions.c`, or from
the history cache, by `DCmass_update_item` of `libs/zbxdbcache/dbcache.c` and
the eligibility test of `DCmass_add_history`.

Both paths compute the same change of the item.  They part in three cases:
when the clock of a speed does not advance, `update_item` writes a last value
where the cache has none; a number of history days below zero keeps the
history in the cache only; and the fragment of the cache that sets two doubles
is cut at 512 bytes.
-/

namespace Zabbix

open Ascii Printf SqlLiteral

/-! ## update statements -/

/-- The values that an `update items` statement sets, besides the clock. -/
inductive ItemsUpdate
  | asIs (lastvalue : List UInt8)
  | change (prevorgvalue lastvalue : List UInt8)
  | original (prevorgvalue : List UInt8)
deriving DecidableEq

namespace ItemsUpdate

/-- The assignments, as `DCmass_update_item` formats them. -/
def assignments : ItemsUpdate → List UInt8
  | asIs last =>
      bytes ",prevvalue=lastvalue,prevorgvalue=NULL,lastvalue='" ++ last ++ bytes "'"
  | change org last =>
      bytes ",prevvalue=lastvalue,prevorgvalue='" ++ org ++ bytes "',lastvalue='" ++ last ++
        bytes "'"
  | original org => bytes ",prevorgvalue='" ++ org ++ bytes "'"

/-- What the statement does to the row. -/
def apply (u : ItemsUpdate) (clock : Int32) (row : ItemsRow) : ItemsRow :=
  match u with
  | asIs last =>
      { row with
        prevvalue := row.lastvalue, prevorgvalue := none, lastvalue := some last
        lastclock := some clock }
  | change org last =>
      { row with
        prevvalue := row.lastvalue, prevorgvalue := some org, lastvalue := some last
        lastclock := some clock }
  | original org => { row with prevorgvalue := some org, lastclock := some clock }

end ItemsUpdate

/-! ## the cache -/

variable {α : Type}

/-- The difference of two clocks; C leaves its overflow undefined. -/
def clockDiff (now lastclock : Int32) : Int := now.toInt - lastclock.toInt

/-- The `switch` of `DCmass_update_item`: `h->value`, `none` where
`h->value_null` is set, and what is set in the row. -/
def dcUpdateValue (ops : NumericOps α) (item : DbItem α) (valueOrig : α) (clock : Int32) :
    Option α × ItemsUpdate :=
  match item.delta with
  | .asIs =>
      let value := ops.multiply item valueOrig
      (some value, .asIs (ops.text value))
  | .speedPerSecond =>
      match (ops.previous item valueOrig).filter fun _ => item.lastclock < clock with
      | some prev =>
          let value := ops.div (ops.sub valueOrig prev) (clockDiff clock item.lastclock)
          let value := ops.multiply item value
          (some value, .change (ops.text valueOrig) (ops.text value))
      | none => (none, .original (ops.text valueOrig))
  | .simpleChange =>
      match ops.previous item valueOrig with
      | some prev =>
          let value := ops.multiply item (ops.sub valueOrig prev)
          (some value, .change (ops.text valueOrig) (ops.text value))
      | none => (none, .original (ops.text valueOrig))

/-- The statement of `DCmass_update_item`, fragment by fragment. -/
def updateItemsSql (itemid : UInt64) (clock : Int32) (u : ItemsUpdate) : List UInt8 :=
  let sql := zbxSnprintfAlloc [] 128 (bytes "update items set lastclock=" ++ d32 clock)
  let sql := zbxSnprintfAlloc sql 512 u.assignments
  zbxSnprintfAlloc sql 128 (bytes " where itemid=" ++ ui64 itemid ++ bytes ";\n")

/-- The whole statement. -/
def updateItemsText (itemid : UInt64) (clock : Int32) (u : ItemsUpdate) : List UInt8 :=
  bytes "update items set lastclock=" ++ d32 clock ++ u.assignments ++
    (bytes " where itemid=" ++ ui64 itemid ++ bytes ";\n")

/-- The database does what a whole statement says; what is left of a statement
that is cut ends in an open literal (`lex_updateItemsSql_cut`) and is
rejected. -/
def executeUpdate (itemid : UInt64) (clock : Int32) (u : ItemsUpdate) (row : ItemsRow) : ItemsRow :=
  if updateItemsSql itemid clock u = updateItemsText itemid clock u then u.apply clock row else row

/-- The entry that `DCadd_history` and `DCadd_history_uint` put into the cache. -/
def dcAddHistoryEntry (ops : NumericOps α) (itemid : UInt64) (valueOrig : α) (clock : Int32) :
    Sample Double :=
  { itemid := itemid, clock := clock, value := ops.entry valueOrig ops.zero }

/-- The body of `DCmass_update_item` for one row and its entry: what becomes of
the two. -/
def dcMassUpdateItem (ops : NumericOps α) (process : ZbxProcess) (itemid : UInt64) (row : ItemsRow)
    (valueOrig : α) (clock : Int32) : Sample Double × ItemsRow :=
  let h := dcAddHistoryEntry ops itemid valueOrig clock
  let item := dbGetItemFromDb ops.read row
  let (item, h) :=
    match process with
    | .proxy => ({ item with delta := .asIs }, { h with keepHistory := 1, keepTrends := 0 })
    | .server => (item, { h with keepHistory := item.history, keepTrends := item.trends })
  match dcUpdateValue ops item valueOrig clock with
  | (some value, u) =>
      ({ h with value := ops.entry valueOrig value }, executeUpdate itemid clock u row)
  | (none, u) => ({ h with valueNull := true }, executeUpdate itemid clock u row)

/-- The value that `DCmass_add_history` inserts for an entry. -/
def historyValue (h : Sample Double) : Option NumericValue :=
  if stored h then h.value.numeric else none

/-! ## the direct path -/

/-- `add_history`: whether it succeeds, and the value that is inserted. -/
def addHistory (ops : NumericOps α) (item : DbItem α) (value : α) (now : Int32) :
    Bool × Option α :=
  match item.delta with
  | .asIs => (true, if 0 < item.history then some (ops.multiply item value) else none)
  | .speedPerSecond =>
      match (ops.previous item value).filter fun _ => item.lastclock < now with
      | some prev =>
          (true,
            if 0 < item.history then
              let speed := ops.div (ops.sub value prev) (clockDiff now item.lastclock)
              some (ops.multiply item speed)
            else none)
      | none => (false, none)
  | .simpleChange =>
      match ops.previous item value with
      | some prev =>
          (true, if 0 < item.history then some (ops.multiply item (ops.sub value prev)) else none)
      | none => (false, none)

/-- `update_item`: what it sets in the row. -/
def updateItem (ops : NumericOps α) (item : DbItem α) (value : α) (now : Int32) : ItemsUpdate :=
  match item.delta with
  | .asIs => .asIs (ops.text (ops.multiply item value))
  | .speedPerSecond =>
      match ops.previous item value with
      | some prev =>
          -- a difference of one second is assumed when there is none
          let speed :=
            if now ≠ item.lastclock then
              ops.div (ops.sub value prev) (clockDiff now item.lastclock)
            else ops.sub value prev
          .change (ops.text value) (ops.text (ops.multiply item speed))
      | none => .original (ops.text value)
  | .simpleChange =>
      match ops.previous item value with
      | some prev =>
          .change (ops.text value) (ops.text (ops.multiply item (ops.sub value prev)))
      | none => .original (ops.text value)

/-! ## the two paths -/

/-- What a path leaves: the value in the history, and the row. -/
structure Updated where
  history : Option NumericValue
  row : ItemsRow
deriving DecidableEq

/-- `DCmass_update_item` and `DCmass_add_history` on the server. -/
def cachedUpdate (ops : NumericOps α) (itemid : UInt64) (row : ItemsRow) (value : α)
    (clock : Int32) : Updated :=
  let (h, row) := dcMassUpdateItem ops .server itemid row value clock
  { history := historyValue h, row := row }

/-- `add_history` and `update_item`; the buffer of a single statement grows. -/
def directUpdate (ops : NumericOps α) (row : ItemsRow) (value : α) (clock : Int32) : Updated :=
  let item := dbGetItemFromDb ops.read row
  { history := (addHistory ops item value clock).2.map ops.value
    row := (updateItem ops item value clock).apply clock row }

/-- The cached path, by the type of the value. -/
def NumericValue.cachedUpdate (clib : Clib) (itemid : UInt64) (row : ItemsRow) (clock : Int32) :
    NumericValue → Updated
  | float value => Zabbix.cachedUpdate (floatOps clib) itemid row value clock
  | uint64 value => Zabbix.cachedUpdate (uint64Ops clib) itemid row value clock

/-- The direct path, by the type of the value. -/
def NumericValue.directUpdate (clib : Clib) (row : ItemsRow) (clock : Int32) :
    NumericValue → Updated
  | float value => Zabbix.directUpdate (floatOps clib) row value clock
  | uint64 value => Zabbix.directUpdate (uint64Ops clib) row value clock

/-! ## the change of an item -/

section change

variable (ops : NumericOps α) (item : DbItem α) (value : α) (clock : Int32)

/-- The value that an item takes: what `delta` asks for, when its tests pass. -/
def change : Option α :=
  match item.delta with
  | .asIs => some (ops.multiply item value)
  | .speedPerSecond =>
      ((ops.previous item value).filter fun _ => item.lastclock < clock).map fun prev =>
        ops.multiply item (ops.div (ops.sub value prev) (clockDiff clock item.lastclock))
  | .simpleChange =>
      (ops.previous item value).map fun prev => ops.multiply item (ops.sub value prev)

/-- The tests under which an item takes a value. -/
def Storable : Prop :=
  match item.delta with
  | .asIs => True
  | .speedPerSecond => (ops.previous item value).isSome ∧ item.lastclock < clock
  | .simpleChange => (ops.previous item value).isSome

/-- A speed over a clock that does not advance. -/
def Stalled : Prop :=
  item.delta = .speedPerSecond ∧ (ops.previous item value).isSome ∧ ¬item.lastclock < clock

/-- The texts of the original value and of the change fit into one fragment. -/
def ChangeFits : Prop :=
  item.delta ≠ .asIs →
    ∀ v ∈ change ops item value clock, (ops.text value).length + (ops.text v).length ≤ 462

/-- The conditions under which the two paths agree. -/
def Agreeable (ops : NumericOps α) (row : ItemsRow) (value : α) (clock : Int32) : Prop :=
  ¬Stalled ops (dbGetItemFromDb ops.read row) value clock ∧
    ChangeFits ops (dbGetItemFromDb ops.read row) value clock ∧
    (row.history < 0 → ¬Storable ops (dbGetItemFromDb ops.read row) value clock)

theorem change_isSome_iff : (change ops item value clock).isSome ↔ Storable ops item value clock := by
  rw [change, Storable]
  cases item.delta with
  | asIs => simp
  | speedPerSecond => cases ops.previous item value <;> simp [Option.filter]
  | simpleChange => simp

/-- What is set for a change. -/
def changeUpdate : ItemsUpdate :=
  match change ops item value clock with
  | none => .original (ops.text value)
  | some v =>
      if item.delta = .asIs then .asIs (ops.text v) else .change (ops.text value) (ops.text v)

/-- The cache computes the change. -/
theorem dcUpdateValue_eq :
    dcUpdateValue ops item value clock =
      (change ops item value clock, changeUpdate ops item value clock) := by
  rw [dcUpdateValue, changeUpdate, change]
  cases hd : item.delta with
  | asIs => rfl
  | speedPerSecond =>
      dsimp only
      cases (ops.previous item value).filter fun _ => item.lastclock < clock <;> rfl
  | simpleChange =>
      dsimp only
      cases ops.previous item value <;> rfl

/-- `add_history` inserts the change. -/
theorem addHistory_snd :
    (addHistory ops item value clock).2 =
      if 0 < item.history then change ops item value clock else none := by
  rw [addHistory, change]
  cases item.delta with
  | asIs => rfl
  | speedPerSecond =>
      dsimp only
      cases (ops.previous item value).filter fun _ => item.lastclock < clock <;> simp
  | simpleChange =>
      dsimp only
      cases ops.previous item value <;> simp

variable {ops item value clock}

/-- `update_item` sets the change, unless the clock stalls. -/
theorem updateItem_eq (h : ¬Stalled ops item value clock) :
    updateItem ops item value clock = changeUpdate ops item value clock := by
  rw [updateItem, changeUpdate, change]
  cases hd : item.delta with
  | asIs => rfl
  | speedPerSecond =>
      dsimp only
      cases hp : ops.previous item value with
      | none => rfl
      | some prev =>
          have hlt : item.lastclock < clock := by
            by_contra hlt
            exact h ⟨hd, by rw [hp]; rfl, hlt⟩
          have hne : clock ≠ item.lastclock := by
            rintro rfl
            exact Int32.lt_irrefl hlt
          have hfilter : ((some prev).filter fun _ => decide (item.lastclock < clock)) = some prev := by
            simp [hlt]
          rw [hfilter]
          simp [hne]
  | simpleChange =>
      dsimp only
      cases ops.previous item value <;> rfl

/-- A stalled clock: `update_item` sets a last value all the same. -/
theorem updateItem_stalled (h : Stalled ops item value clock) :
    ∃ last, updateItem ops item value clock = .change (ops.text value) last := by
  obtain ⟨hd, hp, -⟩ := h
  obtain ⟨prev, hprev⟩ := Option.isSome_iff_exists.mp hp
  rw [updateItem, hd, hprev]
  exact ⟨_, rfl⟩

/-- A stalled clock: the cache sets none. -/
theorem changeUpdate_stalled (h : Stalled ops item value clock) :
    changeUpdate ops item value clock = .original (ops.text value) := by
  obtain ⟨hd, -, hlt⟩ := h
  have hnone : change ops item value clock = none := by
    rw [change, hd]
    simp [hlt]
  rw [changeUpdate, hnone]

end change

/-! ## what is written -/

theorem length_asIs (last : List UInt8) :
    (ItemsUpdate.asIs last).assignments.length = last.length + 51 := by
  have hhead : (bytes ",prevvalue=lastvalue,prevorgvalue=NULL,lastvalue='").length = 50 := by decide
  have htail : (bytes "'").length = 1 := by decide
  rw [ItemsUpdate.assignments, List.length_append, List.length_append, hhead, htail]
  omega

theorem length_change (org last : List UInt8) :
    (ItemsUpdate.change org last).assignments.length = org.length + last.length + 49 := by
  have hhead : (bytes ",prevvalue=lastvalue,prevorgvalue='").length = 35 := by decide
  have hmid : (bytes "',lastvalue='").length = 13 := by decide
  have htail : (bytes "'").length = 1 := by decide
  simp only [ItemsUpdate.assignments, List.length_append, hhead, hmid, htail]
  omega

theorem length_original (org : List UInt8) :
    (ItemsUpdate.original org).assignments.length = org.length + 16 := by
  have hhead : (bytes ",prevorgvalue='").length = 15 := by decide
  have htail : (bytes "'").length = 1 := by decide
  rw [ItemsUpdate.assignments, List.length_append, List.length_append, hhead, htail]
  omega

/-- Only the assignments can be cut. -/
theorem updateItemsSql_eq (itemid : UInt64) (clock : Int32) (u : ItemsUpdate) :
    updateItemsSql itemid clock u =
      bytes "update items set lastclock=" ++ d32 clock ++ zbxVsnprintf 512 u.assignments ++
        (bytes " where itemid=" ++ ui64 itemid ++ bytes ";\n") := by
  have hhead : (bytes "update items set lastclock=" ++ d32 clock).length < 128 := by
    have h1 : (bytes "update items set lastclock=").length = 27 := by decide
    have h2 := length_d32_le clock
    rw [List.length_append, h1]
    omega
  have htail : (bytes " where itemid=" ++ ui64 itemid ++ bytes ";\n").length < 128 := by
    have h1 : (bytes " where itemid=").length = 14 := by decide
    have h2 := length_ui64_le itemid
    have h3 : (bytes ";\n").length = 2 := by decide
    rw [List.length_append, List.length_append, h1, h3]
    omega
  simp only [updateItemsSql, zbxSnprintfAlloc, zbxVsnprintf_of_lt hhead, zbxVsnprintf_of_lt htail,
    List.nil_append]

/-- The statement is whole when its assignments are shorter than 512 bytes. -/
theorem updateItemsSql_eq_iff (itemid : UInt64) (clock : Int32) (u : ItemsUpdate) :
    updateItemsSql itemid clock u = updateItemsText itemid clock u ↔ u.assignments.length < 512 := by
  have hne : u.assignments ≠ [] := by
    intro h
    have h0 := congrArg List.length h
    cases u <;> simp [length_asIs, length_change, length_original] at h0
  rw [updateItemsSql_eq, updateItemsText, List.append_left_inj, List.append_right_inj,
    zbxVsnprintf_eq_iff hne]

/-- What is left of the assignments of a change that are cut. -/
theorem zbxVsnprintf_change {org last : List UInt8} (hlen : org.length ≤ 320)
    (hcut : ¬(ItemsUpdate.change org last).assignments.length < 512) :
    zbxVsnprintf 512 (ItemsUpdate.change org last).assignments =
      bytes ",prevvalue=lastvalue,prevorgvalue='" ++ org ++ bytes "',lastvalue='" ++
        last.take (463 - org.length) := by
  rw [length_change] at hcut
  have hpre : (bytes ",prevvalue=lastvalue,prevorgvalue='" ++ org ++ bytes "',lastvalue='").length =
      org.length + 48 := by
    have h1 : (bytes ",prevvalue=lastvalue,prevorgvalue='").length = 35 := by decide
    have h2 : (bytes "',lastvalue='").length = 13 := by decide
    rw [List.length_append, List.length_append, h1, h2]
    omega
  have hleft : 512 - 1 - (org.length + 48) = 463 - org.length := by omega
  rw [zbxVsnprintf, ItemsUpdate.assignments, List.append_assoc _ last, List.take_append, hpre, hleft,
    List.take_of_length_le (by omega), List.take_append_of_le_length (by omega)]

/-- The last literal of a statement that is cut is never closed. -/
theorem lex_updateItemsSql_cut (b : Backend) (rule : UnescapeRule) (itemid : UInt64)
    (clock : Int32) {org last : List UInt8} (horg : Bare org) (hlast : Bare last)
    (hlen : org.length ≤ 320) (hcut : ¬(ItemsUpdate.change org last).assignments.length < 512) :
    (b.dialect rule).lex (updateItemsSql itemid clock (.change org last)) = none := by
  have hplain : Bare (bytes "update items set lastclock=" ++ d32 clock ++
      bytes ",prevvalue=lastvalue,prevorgvalue=") :=
    (Bare.append (by decide) (bare_d32 clock)).append (by decide)
  have hmid : Bare (bytes ",lastvalue=") := by decide
  have htail : Bare (last.take (463 - org.length) ++
      (bytes " where itemid=" ++ ui64 itemid ++ bytes ";\n")) :=
    Bare.append (fun c hc => hlast c (List.mem_of_mem_take hc))
      ((Bare.append (by decide) (bare_ui64 itemid)).append (by decide))
  have hopen : bytes ",prevvalue=lastvalue,prevorgvalue='" =
      bytes ",prevvalue=lastvalue,prevorgvalue=" ++ [squote] := by decide
  have hclose : bytes "',lastvalue='" = squote :: bytes ",lastvalue=" ++ [squote] := by decide
  have hsep : Separated ((plain (bytes "update items set lastclock=" ++ d32 clock ++
      bytes ",prevvalue=lastvalue,prevorgvalue=") ++ .lit org :: plain (bytes ",lastvalue=")) ++
        [.lit []]) := by
    rw [List.append_assoc]
    exact joins_plain hplain.squote _
      (joins_lit_plain org (by decide) hmid.squote [.lit []] ⟨by simp, trivial⟩)
  rw [updateItemsSql_eq, zbxVsnprintf_change hlen hcut, hopen, hclose,
    ← lex_render_open (escapes_escape b rule) hsep htail.squote, render_append, render_plain,
    render_lit_cons, render_plain, quoted, flatMap_escape_of_bare horg]
  congr 1
  simp [List.append_assoc]

/-- A statement that fits is executed. -/
theorem executeUpdate_of_lt {itemid : UInt64} {clock : Int32} {u : ItemsUpdate} {row : ItemsRow}
    (h : u.assignments.length < 512) : executeUpdate itemid clock u row = u.apply clock row :=
  if_pos ((updateItemsSql_eq_iff itemid clock u).mpr h)

/-- A statement that is cut does nothing. -/
theorem executeUpdate_of_not_lt {itemid : UInt64} {clock : Int32} {u : ItemsUpdate}
    {row : ItemsRow} (h : ¬u.assignments.length < 512) : executeUpdate itemid clock u row = row :=
  if_neg fun heq => h ((updateItemsSql_eq_iff itemid clock u).mp heq)

/-- Setting the original value alone leaves the last value. -/
theorem executeUpdate_original (itemid : UInt64) (clock : Int32) (org : List UInt8)
    (row : ItemsRow) :
    (executeUpdate itemid clock (.original org) row).lastvalue = row.lastvalue := by
  rw [executeUpdate]
  split <;> rfl

section outcome

variable {ops : NumericOps α} {item : DbItem α} {value : α} {clock : Int32}

/-- The assignments of a change fit when its texts do; the others always fit. -/
theorem changeUpdate_lt_iff :
    (changeUpdate ops item value clock).assignments.length < 512 ↔
      ChangeFits ops item value clock := by
  have horg := ops.length_text_le value
  rw [changeUpdate, ChangeFits]
  cases change ops item value clock with
  | none =>
      rw [length_original]
      simp
      omega
  | some v =>
      have hv := ops.length_text_le v
      dsimp only
      split
      · next hd =>
          rw [length_asIs]
          simp [hd]
          omega
      · next hd =>
          rw [length_change]
          simp [hd]
          omega

/-- What is cut would have set a last value. -/
theorem lastvalue_apply_of_cut (h : ¬(changeUpdate ops item value clock).assignments.length < 512)
    (clock' : Int32) (row : ItemsRow) :
    ((changeUpdate ops item value clock).apply clock' row).lastvalue ≠ none := by
  have horg := ops.length_text_le value
  rw [changeUpdate] at h ⊢
  cases hc : change ops item value clock with
  | none =>
      rw [hc, length_original] at h
      omega
  | some v =>
      dsimp only
      split <;> simp [ItemsUpdate.apply]

/-- What the cached path leaves. -/
theorem cachedUpdate_eq (itemid : UInt64) (row : ItemsRow) :
    cachedUpdate ops itemid row value clock =
      { history :=
          if row.history = 0 then none
          else (change ops (dbGetItemFromDb ops.read row) value clock).map ops.value
        row :=
          executeUpdate itemid clock
            (changeUpdate ops (dbGetItemFromDb ops.read row) value clock) row } := by
  rw [cachedUpdate, dcMassUpdateItem]
  simp only
  rw [dcUpdateValue_eq]
  cases hc : change ops (dbGetItemFromDb ops.read row) value clock with
  | none => simp [historyValue, stored]
  | some v =>
      by_cases hh : row.history = 0
      · simp [historyValue, stored, dbGetItemFromDb, hh]
      · simp [historyValue, stored, dbGetItemFromDb, dcAddHistoryEntry, hh, ops.numeric_entry]

/-- What the direct path leaves, when the clock does not stall. -/
theorem directUpdate_eq {row : ItemsRow}
    (h : ¬Stalled ops (dbGetItemFromDb ops.read row) value clock) :
    directUpdate ops row value clock =
      { history :=
          if 0 < row.history then
            (change ops (dbGetItemFromDb ops.read row) value clock).map ops.value
          else none
        row := (changeUpdate ops (dbGetItemFromDb ops.read row) value clock).apply clock row } := by
  rw [directUpdate, addHistory_snd, updateItem_eq h, apply_ite (Option.map ops.value)]
  rfl

/-- The two paths agree. -/
theorem cachedUpdate_eq_directUpdate (itemid : UInt64) {row : ItemsRow}
    (h : Agreeable ops row value clock) :
    cachedUpdate ops itemid row value clock = directUpdate ops row value clock := by
  obtain ⟨hstall, hfits, hneg⟩ := h
  rw [cachedUpdate_eq, directUpdate_eq hstall, executeUpdate_of_lt (changeUpdate_lt_iff.mpr hfits)]
  by_cases hpos : 0 < row.history
  · have hne : row.history ≠ 0 := by
      intro h
      rw [h] at hpos
      exact absurd hpos (by decide)
    rw [if_neg hne, if_pos hpos]
  · by_cases hzero : row.history = 0
    · rw [if_pos hzero, if_neg hpos]
    · have hlt : row.history < 0 := Int32.lt_of_le_of_ne (Int32.not_lt.mp hpos) hzero
      have hnone := hneg hlt
      rw [← change_isSome_iff, Option.not_isSome_iff_eq_none] at hnone
      rw [if_neg hzero, if_neg hpos, hnone]
      rfl

/-- Where the two paths agree on a row without last value, the conditions
hold. -/
theorem of_cachedUpdate_eq_directUpdate {itemid : UInt64} (row : ItemsRow)
    (hlast : row.lastvalue = none)
    (heq : cachedUpdate ops itemid row value clock = directUpdate ops row value clock) :
    Agreeable ops row value clock := by
  rw [cachedUpdate_eq] at heq
  have hstall : ¬Stalled ops (dbGetItemFromDb ops.read row) value clock := by
    intro h
    obtain ⟨last, hupdate⟩ := updateItem_stalled h
    have hrow := congrArg (fun u => u.row.lastvalue) heq
    rw [directUpdate, changeUpdate_stalled h, executeUpdate_original] at hrow
    simp [hupdate, ItemsUpdate.apply, hlast] at hrow
  rw [directUpdate_eq hstall, Updated.mk.injEq] at heq
  obtain ⟨hhist, hrow⟩ := heq
  refine ⟨hstall, ?_, ?_⟩
  · rw [← changeUpdate_lt_iff]
    by_contra hcut
    rw [executeUpdate_of_not_lt hcut] at hrow
    exact lastvalue_apply_of_cut hcut clock row (by rw [← hrow, hlast])
  · intro hneg hstore
    obtain ⟨v, hv⟩ := Option.isSome_iff_exists.mp ((change_isSome_iff _ _ _ _).mpr hstore)
    rw [if_neg (Int32.ne_of_lt hneg), if_neg (Int32.lt_asymm hneg), hv] at hhist
    cases hhist

/-- For values of one type: agreement, whatever the last values of the row are. -/
theorem cachedUpdate_eq_directUpdate_iff (itemid : UInt64) (row : ItemsRow) :
    (∀ lastvalue prevvalue,
        cachedUpdate ops itemid (row.setLast lastvalue prevvalue) value clock =
          directUpdate ops (row.setLast lastvalue prevvalue) value clock) ↔
      Agreeable ops row value clock := by
  constructor
  · intro hall
    exact of_cachedUpdate_eq_directUpdate (row.setLast none none) rfl (hall none none)
  · intro h lastvalue prevvalue
    exact cachedUpdate_eq_directUpdate itemid h

end outcome

/-- The texts of integers always fit. -/
theorem changeFits_uint64 (clib : Clib) (item : DbItem UInt64) (value : UInt64) (clock : Int32) :
    ChangeFits (uint64Ops clib) item value clock := by
  intro _ v _
  have h1 : ((uint64Ops clib).text value).length ≤ 20 := length_ui64_le value
  have h2 : ((uint64Ops clib).text v).length ≤ 20 := length_ui64_le v
  omega

/-- The conditions, by the type of the value. -/
def NumericValue.Agreeable (clib : Clib) (row : ItemsRow) (clock : Int32) : NumericValue → Prop
  | float value => Zabbix.Agreeable (floatOps clib) row value clock
  | uint64 value => Zabbix.Agreeable (uint64Ops clib) row value clock

/-- **When the two paths agree**: for every value, clock and item, the cached
and the direct update store the same history value and leave the same row,
whatever its last values are, exactly when no clock stalls, the texts of the
change fit and no history days below zero keep a value. -/
theorem updates_agree_iff (clib : Clib) (itemid : UInt64) (row : ItemsRow) (clock : Int32)
    (value : NumericValue) :
    (∀ lastvalue prevvalue,
        value.cachedUpdate clib itemid (row.setLast lastvalue prevvalue) clock =
          value.directUpdate clib (row.setLast lastvalue prevvalue) clock) ↔
      value.Agreeable clib row clock := by
  cases value with
  | float value => exact cachedUpdate_eq_directUpdate_iff itemid row
  | uint64 value => exact cachedUpdate_eq_directUpdate_iff itemid row

/-- A library that reads decimal integers, on inputs without doubles. -/
def integerClib : Clib :=
  { atof := fun _ => 0
    scanUi64 := fun s => UInt64.ofNat (s.foldl (fun n c => 10 * n + (c.toNat - 48)) 0)
    le := fun _ _ => true
    sub := fun a _ => a
    mul := fun a _ => a
    divInt := fun a _ => a
    ofUInt64 := fun _ => 0
    toUInt64 := fun _ => 0 }

/-- A counter that stood at 10 at clock 100. -/
def counterRow : ItemsRow :=
  { delta := .speedPerSecond, history := 90, trends := 365, multiplier := 0, formula := bytes "1"
    lastvalue := some (bytes "3"), prevvalue := some (bytes "2"), prevorgvalue := some (bytes "10")
    lastclock := some 100 }

/-- A counter value of 25 at the same clock: the direct path writes the last
value 15, the cache leaves the last value 3. -/
theorem updates_stalled :
    (NumericValue.uint64 25).cachedUpdate integerClib 1 counterRow 100 ≠
      (NumericValue.uint64 25).directUpdate integerClib counterRow 100 := by
  decide

end Zabbix
