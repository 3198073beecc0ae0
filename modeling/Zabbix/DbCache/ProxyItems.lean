import Zabbix.DbCache.History
import Zabbix.Items.Nextcheck
import Zabbix.Lib.SqlBatch
import Zabbix.Proxyconfig.Receive

/-!
# Zabbix.DbCache.ProxyItems

How far a proxy has come in the log files: `DCmass_proxy_update_item` of
`libs/zbxdbcache/dbcache.c`, for a batch of the history cache, and `proxy_update_item` of
`libs/zbxserver/functions.c`, for one value after the other.

The one stores the greatest position of the batch and the other the last one, which is less where
the file was rotated.

* `logsizeRight_iff` — when the batch leaves the position of its last value.
-/

namespace Zabbix

open Ascii Printf

variable {δ : Type}

/-! ## The table -/

/-- The columns of `items` that a proxy writes. -/
structure ProxyItemsRow where
  nextcheck : ℤ
  lastlogsize : Int32
  status : Int32
deriving DecidableEq

/-- `items`, by `itemid`. -/
abbrev ProxyItems := ℕ → Option ProxyItemsRow

/-- `update items set … where itemid=…` -/
def ProxyItems.update (items : ProxyItems) (itemid : ℕ) (set : ProxyItemsRow → ProxyItemsRow) : ProxyItems :=
  Function.update items itemid ((items itemid).map set)

/-! ## The batch -/

/-- `lastlogsize`, of an entry of the type log. -/
def HistoryValue.logsize {σ : Type} : HistoryValue δ σ → Option Int32
  | .log _ _ _ _ lastlogsize => some lastlogsize
  | _ => none

/-- The first loop of `DCmass_proxy_update_item`: `ids`. -/
def logItemids (history : List (Sample δ)) : List ℕ :=
  history.foldl (fun ids e => if e.value.logsize ≠ none then uint64ArrayAdd ids e.itemid.toNat else ids) []

/-- The inner loop of `DCmass_proxy_update_item`: `lastlogsize`. -/
def greatestLogsize (history : List (Sample δ)) (itemid : ℕ) : Int32 :=
  history.foldl
    (fun lastlogsize e =>
      if e.itemid.toNat ≠ itemid then lastlogsize
      else
        match e.value.logsize with
        | none => lastlogsize
        | some size => if lastlogsize < size then size else lastlogsize)
    (-1)

/-- `update items set lastlogsize=%d where itemid=…` -/
structure LogsizeUpdate where
  itemid : ℕ
  lastlogsize : Int32

def LogsizeUpdate.sql (u : LogsizeUpdate) : List UInt8 :=
  zbxSnprintfAlloc [] 128
    (bytes "update items set lastlogsize=" ++ d32 u.lastlogsize ++ bytes " where itemid=" ++ dec u.itemid ++ bytes ";\n")

def LogsizeUpdate.apply (items : ProxyItems) (u : LogsizeUpdate) : ProxyItems :=
  items.update u.itemid fun row => { row with lastlogsize := u.lastlogsize }

/-- `begin` and `end;` of Oracle; `if (sql_offset > 16)` -/
def sqlFrame (b : Backend) : SqlBatch.Frame where
  opening := if b = .oracle then bytes "begin\n" else []
  closing := if b = .oracle then bytes "end;\n" else []
  least := 16
  length_le := by cases b <;> decide

/-- The second loop: the statements. -/
def logsizeUpdates (history : List (Sample δ)) : List LogsizeUpdate :=
  (logItemids history).filterMap fun itemid =>
    let lastlogsize := greatestLogsize history itemid
    if lastlogsize = -1 then none else some { itemid, lastlogsize }

/-- `DCmass_proxy_update_item`: the statements that are executed together. -/
def dcMassProxyUpdateItem (b : Backend) (history : List (Sample δ)) : List (List LogsizeUpdate) :=
  SqlBatch.chunks (sqlFrame b) LogsizeUpdate.sql zbxMaxSqlSize [] (logsizeUpdates history)

/-- The table after `DCmass_proxy_update_item`. -/
def ProxyItems.cached (b : Backend) (items : ProxyItems) (history : List (Sample δ)) : ProxyItems :=
  (dcMassProxyUpdateItem b history).foldl (fun items us => us.foldl LogsizeUpdate.apply items) items

/-! ## The direct path -/

/-- `ITEM_STATUS_ACTIVE` -/
def itemStatusActive : Int32 := 0

/-- `ITEM_STATUS_NOTSUPPORTED` -/
def itemStatusNotsupported : Int32 := 3

/-- `DB_ITEM`, as `proxy_update_item` reads it; `lastlogsize` is that of the value, when the item is
a log. -/
structure ProxyItem (ν : Type) where
  itemid : UInt64
  type : ℤ
  delay : ℤ
  delayFlex : List UInt8
  lastlogsize : Option Int32
  status : Int32
  nextcheck : ℤ
  lastclock : ℤ
  lastvalue : Option ν
  prevvalue : Option ν

/-- The statements of `proxy_update_item`. -/
inductive ProxyItemSet
  | nextcheck (nextcheck : ℤ)
  | nextcheckLogsize (nextcheck : ℤ) (lastlogsize : Int32)
  | status (status : Int32)

def ProxyItemSet.apply : ProxyItemSet → ProxyItemsRow → ProxyItemsRow
  | .nextcheck t, row => { row with nextcheck := t }
  | .nextcheckLogsize t size, row => { row with nextcheck := t, lastlogsize := size }
  | .status s, row => { row with status := s }

/-- `proxy_update_item`: the item and the statements.  `overflow` is what the machine makes of a
next check that an `int` cannot hold. -/
def proxyUpdateItem {ν : Type} (cal : Calendar) (overflow : ℤ) (item : ProxyItem ν) (value : ν) (now : ℤ) :
    ProxyItem ν × List ProxyItemSet :=
  let nextcheck := (calculateItemNextcheck cal item.itemid item.type item.delay item.delayFlex now).getD overflow
  let set :=
    match item.lastlogsize with
    | some lastlogsize => .nextcheckLogsize nextcheck lastlogsize
    | none => .nextcheck nextcheck
  let item := { item with nextcheck, prevvalue := item.lastvalue, lastvalue := some value }
  if item.status = itemStatusNotsupported then
    ({ item with status := itemStatusActive, lastclock := now }, [set, .status itemStatusActive])
  else ({ item with lastclock := now }, [set])

/-- The table after `proxy_update_item` for every value.  `fetch` is the item as it
is when the value comes, which brings its `lastlogsize`. -/
def ProxyItems.direct (cal : Calendar) (overflow : ℤ) (fetch : ProxyItems → UInt64 → ProxyItem (Sample δ)) :
    ProxyItems → List (Sample δ) → ProxyItems
  | items, [] => items
  | items, e :: history =>
      let item := { fetch items e.itemid with itemid := e.itemid, lastlogsize := e.value.logsize }
      let sets := (proxyUpdateItem cal overflow item e e.clock.toInt).2
      ProxyItems.direct cal overflow fetch (sets.foldl (fun items set => items.update item.itemid.toNat set.apply) items) history

/-! ## What they leave -/

/-- The positions of the values of an item, in the order in which they came. -/
def logsizes (history : List (Sample δ)) (itemid : ℕ) : List Int32 :=
  (history.filter (·.itemid.toNat = itemid)).filterMap (·.value.logsize)

theorem logsizes_cons (e : Sample δ) (history : List (Sample δ)) (itemid : ℕ) :
    logsizes (e :: history) itemid =
      if e.itemid.toNat = itemid then e.value.logsize.toList ++ logsizes history itemid else logsizes history itemid := by
  rw [logsizes]
  by_cases h : e.itemid.toNat = itemid
  · rw [if_pos h, List.filter_cons_of_pos (by simpa using h), List.filterMap_cons]
    cases e.value.logsize <;> rfl
  · rw [if_neg h, List.filter_cons_of_neg (by simpa using h)]
    rfl

theorem mem_logItemids {history : List (Sample δ)} {itemid : ℕ} : itemid ∈ logItemids history ↔ logsizes history itemid ≠ [] := by
  suffices h : ∀ (history : List (Sample δ)) (ids : List ℕ), Nearest.Sorted id ids →
      (itemid ∈ history.foldl (fun ids e => if e.value.logsize ≠ none then uint64ArrayAdd ids e.itemid.toNat else ids) ids ↔
        itemid ∈ ids ∨ logsizes history itemid ≠ []) by
    rw [logItemids, h history [] .nil]
    exact or_iff_right List.not_mem_nil
  intro history
  induction history with
  | nil => simp [logsizes]
  | cons e history ih =>
      intro ids hsorted
      rw [List.foldl_cons, logsizes_cons]
      cases hsize : e.value.logsize with
      | none =>
          rw [if_neg (by simp), ih ids hsorted]
          simp
      | some size =>
          rw [if_pos (by simp), ih _ (sorted_uint64ArrayAdd hsorted _), mem_uint64ArrayAdd]
          by_cases h : e.itemid.toNat = itemid
          · rw [if_pos h]
            exact iff_of_true (Or.inl (Or.inl h.symm)) (Or.inr (by simp))
          · rw [if_neg h, or_iff_right (Ne.symm h)]

/-- The greatest position, or -1. -/
def greatest (sizes : List Int32) : Int32 := sizes.foldl (fun size s => if size < s then s else size) (-1)

theorem greatestLogsize_eq (history : List (Sample δ)) (itemid : ℕ) :
    greatestLogsize history itemid = greatest (logsizes history itemid) := by
  rw [greatestLogsize, greatest]
  generalize (-1 : Int32) = size
  induction history generalizing size with
  | nil => rfl
  | cons e history ih =>
      rw [List.foldl_cons, ih, logsizes_cons]
      by_cases h : e.itemid.toNat = itemid
      · rw [if_neg (not_not_intro h), if_pos h]
        cases e.value.logsize <;> rfl
      · rw [if_pos h, if_neg h]

theorem greatest_spec (sizes : List Int32) :
    -1 ≤ (greatest sizes).toInt ∧ (∀ s ∈ sizes, s.toInt ≤ (greatest sizes).toInt) ∧
      (greatest sizes = -1 ∨ greatest sizes ∈ sizes) := by
  suffices h : ∀ size : Int32, size.toInt ≤ (sizes.foldl (fun size s => if size < s then s else size) size).toInt ∧
      (∀ s ∈ sizes, s.toInt ≤ (sizes.foldl (fun size s => if size < s then s else size) size).toInt) ∧
      (sizes.foldl (fun size s => if size < s then s else size) size = size ∨
        sizes.foldl (fun size s => if size < s then s else size) size ∈ sizes) from h (-1)
  induction sizes with
  | nil => exact fun size => ⟨le_rfl, fun _ h => absurd h List.not_mem_nil, Or.inl rfl⟩
  | cons t sizes ih =>
      intro size
      rw [List.foldl_cons, List.forall_mem_cons, List.mem_cons]
      by_cases h : size < t
      · rw [if_pos h]
        obtain ⟨hle, hall, hmem⟩ := ih t
        have := Int32.lt_iff_toInt_lt.mp h
        refine ⟨by omega, ⟨hle, hall⟩, Or.inr ?_⟩
        exact hmem
      · rw [if_neg h]
        obtain ⟨hle, hall, hmem⟩ := ih size
        have := mt Int32.lt_iff_toInt_lt.mpr h
        refine ⟨hle, ⟨by omega, hall⟩, ?_⟩
        rcases hmem with hmem | hmem
        · exact Or.inl hmem
        · exact Or.inr (Or.inr hmem)

/-- The greatest position is the last one where none is greater and it is not below 0. -/
theorem greatest_eq_iff {sizes : List Int32} {l : Int32} (hl : l ∈ sizes) (hpos : 0 ≤ l.toInt) :
    greatest sizes = l ↔ ∀ s ∈ sizes, s.toInt ≤ l.toInt := by
  obtain ⟨-, hall, hmem⟩ := greatest_spec sizes
  constructor
  · intro h
    rwa [h] at hall
  · intro h
    have hle := hall l hl
    rcases hmem with hmem | hmem
    · rw [hmem, show (-1 : Int32).toInt = -1 by decide] at hle
      omega
    · have := h _ hmem
      exact Int32.toInt_inj.mp (by omega)

theorem greatest_eq_neg_one_iff (sizes : List Int32) : greatest sizes = -1 ↔ ∀ s ∈ sizes, s.toInt < 0 := by
  obtain ⟨hneg, hall, hmem⟩ := greatest_spec sizes
  have hone : (-1 : Int32).toInt = -1 := by decide
  constructor
  · intro h s hs
    have := hall s hs
    rw [h, hone] at this
    omega
  · intro h
    rcases hmem with hmem | hmem
    · exact hmem
    · have := h _ hmem
      exact Int32.toInt_inj.mp (by rw [hone]; omega)

theorem LogsizeUpdate.least_lt_length_sql (b : Backend) (u : LogsizeUpdate) : (sqlFrame b).least < u.sql.length := by
  have hhead : (bytes "update items set lastlogsize=").length = 29 := by decide
  rw [LogsizeUpdate.sql, zbxSnprintfAlloc, List.nil_append, zbxVsnprintf, List.length_take]
  simp only [List.length_append, hhead]
  change 16 < _
  omega

/-- No statement is cut. -/
theorem LogsizeUpdate.sql_eq (u : LogsizeUpdate) (h : u.itemid < 2 ^ 64) :
    u.sql = bytes "update items set lastlogsize=" ++ d32 u.lastlogsize ++ bytes " where itemid=" ++ dec u.itemid ++ bytes ";\n" := by
  have hhead : (bytes "update items set lastlogsize=").length = 29 := by decide
  have hwhere : (bytes " where itemid=").length = 14 := by decide
  have hend : (bytes ";\n").length = 2 := by decide
  have hsize := length_d32_le u.lastlogsize
  have hid := length_dec_le (k := 20) (by decide) (lt_trans h (by decide))
  rw [LogsizeUpdate.sql, zbxSnprintfAlloc, List.nil_append]
  apply zbxVsnprintf_of_lt
  simp only [List.length_append, hhead, hwhere, hend]
  omega

theorem ProxyItems.cached_eq (b : Backend) (items : ProxyItems) (history : List (Sample δ)) :
    items.cached b history = (logsizeUpdates history).foldl LogsizeUpdate.apply items := by
  rw [ProxyItems.cached, ← List.foldl_flatten, dcMassProxyUpdateItem,
    SqlBatch.flatten_chunks (LogsizeUpdate.least_lt_length_sql b), List.nil_append]

theorem LogsizeUpdate.foldl_apply {us : List LogsizeUpdate} {itemid : ℕ} {size : Int32}
    (h : ∀ u ∈ us, u.itemid = itemid → u.lastlogsize = size) (items : ProxyItems) :
    us.foldl LogsizeUpdate.apply items itemid =
      if ∃ u ∈ us, u.itemid = itemid then (items itemid).map fun row => { row with lastlogsize := size } else items itemid := by
  induction us generalizing items with
  | nil => simp
  | cons u us ih =>
      rw [List.forall_mem_cons] at h
      rw [List.foldl_cons, ih h.2, LogsizeUpdate.apply, ProxyItems.update]
      by_cases hu : u.itemid = itemid
      · subst hu
        have hex : ∃ x ∈ u :: us, x.itemid = u.itemid := ⟨u, List.mem_cons_self, rfl⟩
        rw [Function.update_self, h.1 rfl, if_pos hex, Option.map_map]
        split <;> rfl
      · have hex : (∃ x ∈ u :: us, x.itemid = itemid) ↔ ∃ x ∈ us, x.itemid = itemid := by
          rw [List.exists_mem_cons_iff]
          exact or_iff_right hu
        rw [Function.update_of_ne (Ne.symm hu)]
        exact (if_congr hex rfl rfl).symm

/-- What the batch leaves of an item. -/
theorem ProxyItems.cached_apply (b : Backend) (items : ProxyItems) (history : List (Sample δ)) (itemid : ℕ) :
    items.cached b history itemid =
      if logsizes history itemid ≠ [] ∧ greatest (logsizes history itemid) ≠ -1 then
        (items itemid).map fun row => { row with lastlogsize := greatest (logsizes history itemid) }
      else items itemid := by
  have hmem (u : LogsizeUpdate) : u ∈ logsizeUpdates history ↔
      u.itemid ∈ logItemids history ∧ greatestLogsize history u.itemid ≠ -1 ∧ u.lastlogsize = greatestLogsize history u.itemid := by
    rw [logsizeUpdates, List.mem_filterMap]
    constructor
    · rintro ⟨id, hid, h⟩
      dsimp only at h
      split at h
      · cases h
      · rename_i hne
        rw [← Option.some.inj h]
        exact ⟨hid, hne, rfl⟩
    · rintro ⟨hid, hne, hsize⟩
      refine ⟨u.itemid, hid, ?_⟩
      rw [if_neg hne, ← hsize]
  rw [ProxyItems.cached_eq, LogsizeUpdate.foldl_apply]
  · refine if_congr ?_ rfl rfl
    rw [← mem_logItemids, ← greatestLogsize_eq]
    constructor
    · rintro ⟨u, hu, rfl⟩
      obtain ⟨hid, hne, -⟩ := (hmem u).mp hu
      exact ⟨hid, hne⟩
    · rintro ⟨hid, hne⟩
      exact ⟨⟨itemid, greatestLogsize history itemid⟩, (hmem _).mpr ⟨hid, hne, rfl⟩, rfl⟩
  · rintro u hu rfl
    rw [((hmem u).mp hu).2.2, greatestLogsize_eq]

theorem ProxyItems.foldl_update (items : ProxyItems) (itemid id : ℕ) (sets : List ProxyItemSet) :
    sets.foldl (fun items set => items.update itemid set.apply) items id =
      if id = itemid then (items id).map fun row => sets.foldl (fun row set => set.apply row) row else items id := by
  induction sets generalizing items with
  | nil => simp
  | cons set sets ih =>
      rw [List.foldl_cons, ih, ProxyItems.update]
      by_cases h : id = itemid
      · subst h
        rw [if_pos rfl, if_pos rfl, Function.update_self, Option.map_map]
        rfl
      · rw [if_neg h, if_neg h, Function.update_of_ne h]

/-- A log item takes the position of the value. -/
theorem proxyUpdateItem_logsize {ν : Type} (cal : Calendar) (overflow : ℤ) (item : ProxyItem ν) (value : ν) (now : ℤ)
    (row : ProxyItemsRow) :
    ((proxyUpdateItem cal overflow item value now).2.foldl (fun row set => set.apply row) row).lastlogsize =
      item.lastlogsize.getD row.lastlogsize := by
  rw [proxyUpdateItem]
  cases item.lastlogsize with
  | none =>
      dsimp only
      split <;> rfl
  | some size =>
      dsimp only
      split <;> rfl

variable (cal : Calendar) (overflow : ℤ) (fetch : ProxyItems → UInt64 → ProxyItem (Sample δ))

/-- What the direct path leaves of an item. -/
theorem ProxyItems.direct_logsize (items : ProxyItems) (history : List (Sample δ)) (itemid : ℕ) :
    (items.direct cal overflow fetch history itemid).map (·.lastlogsize) =
      (items itemid).map fun row => (logsizes history itemid).getLast?.getD row.lastlogsize := by
  induction history generalizing items with
  | nil => rfl
  | cons e history ih =>
      rw [ProxyItems.direct, ih, ProxyItems.foldl_update, logsizes_cons]
      by_cases h : itemid = e.itemid.toNat
      · rw [if_pos h, if_pos h.symm, Option.map_map]
        congr 1
        funext row
        rw [Function.comp_apply, proxyUpdateItem_logsize]
        cases e.value.logsize with
        | none => rfl
        | some size => rw [Option.toList_some, List.singleton_append, List.getLast?_cons]; rfl
      · rw [if_neg h, if_neg (Ne.symm h)]

/-- **The position** after a batch is that of the latest value, as the direct path has it. -/
structure LogsizeRight (b : Backend) (items : ProxyItems) (history : List (Sample δ)) (itemid : ℕ) : Prop where
  latest (size : Int32) (h : (logsizes history itemid).getLast? = some size) :
    (items.cached b history itemid).map (·.lastlogsize) = (items itemid).map fun _ => size
  direct : (items.cached b history itemid).map (·.lastlogsize) =
    (items.direct cal overflow fetch history itemid).map (·.lastlogsize)

/-- No position of the item is greater than the latest one; one below 0 is there before. -/
def LatestGreatest (items : ProxyItems) (history : List (Sample δ)) (itemid : ℕ) : Prop :=
  ∀ size, (logsizes history itemid).getLast? = some size → ∀ row, items itemid = some row →
    if 0 ≤ size.toInt then ∀ s ∈ logsizes history itemid, s.toInt ≤ size.toInt
    else (∀ s ∈ logsizes history itemid, s.toInt < 0) ∧ row.lastlogsize = size

theorem latestGreatest_iff (b : Backend) (items : ProxyItems) (history : List (Sample δ)) (itemid : ℕ) :
    LatestGreatest items history itemid ↔ ∀ size, (logsizes history itemid).getLast? = some size →
      (items.cached b history itemid).map (·.lastlogsize) = (items itemid).map fun _ => size := by
  have hcached := ProxyItems.cached_apply b items history itemid
  rw [LatestGreatest]
  generalize logsizes history itemid = sizes at hcached
  refine forall_congr' fun size => imp_congr_right fun hlast => ?_
  have hmem : size ∈ sizes := List.mem_of_getLast? hlast
  have hne : sizes ≠ [] := List.ne_nil_of_mem hmem
  rw [hcached]
  cases hrow : items itemid with
  | none => simp
  | some row =>
      have hsome : (∀ r, some row = some r →
          if 0 ≤ size.toInt then ∀ s ∈ sizes, s.toInt ≤ size.toInt
          else (∀ s ∈ sizes, s.toInt < 0) ∧ r.lastlogsize = size) ↔
          if 0 ≤ size.toInt then ∀ s ∈ sizes, s.toInt ≤ size.toInt
          else (∀ s ∈ sizes, s.toInt < 0) ∧ row.lastlogsize = size :=
        ⟨fun h => h row rfl, fun h r hr => Option.some.inj hr ▸ h⟩
      rw [hsome]
      by_cases hpos : 0 ≤ size.toInt
      · have hgreat : greatest sizes ≠ -1 := fun h =>
          absurd ((greatest_eq_neg_one_iff sizes).mp h size hmem) (by omega)
        rw [if_pos hpos, if_pos ⟨hne, hgreat⟩, ← greatest_eq_iff hmem hpos]
        simp
      · rw [if_neg hpos, ← greatest_eq_neg_one_iff]
        by_cases hgreat : greatest sizes = -1
        · rw [if_neg fun h => h.2 hgreat, and_iff_right hgreat]
          simp
        · rw [if_pos ⟨hne, hgreat⟩]
          refine iff_of_false (fun h => hgreat h.1) fun h => ?_
          have heq : greatest sizes = size := by simpa using h
          obtain ⟨hle, -, -⟩ := greatest_spec sizes
          have hone : (-1 : Int32).toInt = -1 := by decide
          rw [heq] at hle
          exact hgreat (heq.trans (Int32.toInt_inj.mp (by rw [hone]; omega)))

/-- Where the latest position is left, the direct path leaves it too. -/
theorem cached_eq_direct {b : Backend} {items : ProxyItems} {history : List (Sample δ)} {itemid : ℕ}
    (h : ∀ size, (logsizes history itemid).getLast? = some size →
      (items.cached b history itemid).map (·.lastlogsize) = (items itemid).map fun _ => size) :
    (items.cached b history itemid).map (·.lastlogsize) =
      (items.direct cal overflow fetch history itemid).map (·.lastlogsize) := by
  rw [ProxyItems.direct_logsize]
  cases hlast : (logsizes history itemid).getLast? with
  | none =>
      rw [ProxyItems.cached_apply, if_neg fun hne => hne.1 (List.getLast?_eq_none_iff.mp hlast)]
      rfl
  | some size =>
      rw [h size hlast]
      rfl

theorem logsizeRight_iff (b : Backend) (items : ProxyItems) (history : List (Sample δ)) (itemid : ℕ) :
    LogsizeRight cal overflow fetch b items history itemid ↔ LatestGreatest items history itemid := by
  rw [latestGreatest_iff b]
  constructor
  · exact fun h => h.latest
  · exact fun h => ⟨h, cached_eq_direct cal overflow fetch h⟩

/-- A file that was rotated between two values of a batch. -/
theorem not_logsizeRight_rotated :
    ¬LogsizeRight (δ := ℤ) ⟨fun _ => ⟨0, 0, 0, 0⟩, 0⟩ 0 (fun _ itemid => ⟨itemid, 7, 30, [], none, 0, 0, 0, none, none⟩) .mysql
      (fun _ => some ⟨0, 0, 0⟩)
      [{ itemid := 7, clock := 100, value := .log [] 0 none 0 500 }, { itemid := 7, clock := 101, value := .log [] 0 none 0 20 }]
      7 := by
  intro h
  have hlatest := h.latest 20 rfl
  rw [ProxyItems.cached_apply] at hlatest
  exact absurd hlatest (by decide)

/-! ## Batch after batch -/

/-- Every batch is met with a table for which it leaves the latest position. -/
def BatchesGreatest (b : Backend) (itemid : ℕ) : ProxyItems → List (List (Sample δ)) → Prop
  | _, [] => True
  | items, history :: batches => LatestGreatest items history itemid ∧ BatchesGreatest b itemid (items.cached b history) batches

theorem ProxyItems.direct_append (items : ProxyItems) (history rest : List (Sample δ)) :
    items.direct cal overflow fetch (history ++ rest) =
      (items.direct cal overflow fetch history).direct cal overflow fetch rest := by
  induction history generalizing items with
  | nil => rfl
  | cons e history ih => exact ih _

/-- **Over a run** the position stays that of the direct path. -/
theorem cached_run_logsize (b : Backend) (items : ProxyItems) (batches : List (List (Sample δ))) (itemid : ℕ)
    (h : BatchesGreatest b itemid items batches) :
    (batches.foldl (fun items history => items.cached b history) items itemid).map (·.lastlogsize) =
      (items.direct cal overflow fetch batches.flatten itemid).map (·.lastlogsize) := by
  suffices hrun : ∀ direct : ProxyItems, (items itemid).map (·.lastlogsize) = (direct itemid).map (·.lastlogsize) →
      (batches.foldl (fun items history => items.cached b history) items itemid).map (·.lastlogsize) =
        (direct.direct cal overflow fetch batches.flatten itemid).map (·.lastlogsize) from hrun items rfl
  have hcolumn (history : List (Sample δ)) (t u : ProxyItems)
      (htu : (t itemid).map (·.lastlogsize) = (u itemid).map (·.lastlogsize)) :
      (t.direct cal overflow fetch history itemid).map (·.lastlogsize) =
        (u.direct cal overflow fetch history itemid).map (·.lastlogsize) := by
    have hboth := congrArg (fun o => o.map fun size => (logsizes history itemid).getLast?.getD size) htu
    simp only [Option.map_map, Function.comp_def] at hboth
    rw [ProxyItems.direct_logsize, ProxyItems.direct_logsize, hboth]
  induction batches generalizing items with
  | nil => exact fun direct heq => heq
  | cons history batches ih =>
      intro direct heq
      obtain ⟨hbatch, hrest⟩ := h
      have hcached := cached_eq_direct cal overflow fetch ((latestGreatest_iff b items history itemid).mp hbatch)
      rw [List.foldl_cons, List.flatten_cons, ProxyItems.direct_append]
      exact ih _ hrest _ (hcached.trans (hcolumn history items direct heq))

end Zabbix
