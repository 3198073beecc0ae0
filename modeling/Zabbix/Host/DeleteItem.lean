import Zabbix.Host.DeleteTrigger

/-!
# Zabbix.Host.DeleteItem

The deletion of an item, with the items that are linked to it, and with the triggers that use it
(`DBdelete_item` of `libs/zbxdbhigh/host.c`).

The triggers are read from `functions`, once for each function with the item, and the deletion of a trigger that is
not there any more fails.  So an item stays, when a trigger that uses it is met a second time.
-/

namespace Zabbix.Host

open Cascade Outcome Propagate Relation

/-! ## the functions -/

/-- `SCREEN_RESOURCE_SIMPLE_GRAPH` -/
def screenResourceSimpleGraph : ℤ := 1

/-- `SCREEN_RESOURCE_PLAIN_TEXT` -/
def screenResourcePlainText : ℤ := 3

/-- `insert into housekeeper ..` -/
def HostDb.queue (db : HostDb) (tablename : ValueTable) (itemid : ℕ) : HostDb :=
  { db with housekeeper := db.housekeeper ++ [⟨tablename, itemid⟩] }

/-- `delete from .. where itemid=..` -/
def HostDb.clear (db : HostDb) (tablename : ValueTable) (itemid : ℕ) : HostDb :=
  { db with
    values := fun table => if table = tablename then (db.values table).filter (· ≠ itemid) else db.values table }

/-- `DBdelete_trends_by_itemid` -/
def dbDeleteTrendsByItemid (db : HostDb) (itemid : ℕ) (useHousekeeper : Bool) : HostDb :=
  if useHousekeeper then db.queue .trends itemid else db.clear .trends itemid

/-- `DBdelete_history_by_itemid` -/
def dbDeleteHistoryByItemid (db : HostDb) (itemid : ℕ) (useHousekeeper : Bool) : HostDb :=
  let db := dbDeleteTrendsByItemid db itemid useHousekeeper
  if useHousekeeper then
    let db := db.queue .historyText itemid
    let db := db.queue .historyLog itemid
    let db := db.queue .historyUint itemid
    let db := db.queue .historyStr itemid
    db.queue .history itemid
  else
    let db := db.clear .historyText itemid
    let db := db.clear .historyLog itemid
    let db := db.clear .historyUint itemid
    let db := db.clear .historyStr itemid
    db.clear .history itemid

/-- The statements of `DBdelete_item` itself. -/
def HostDb.deleteItemRows (db : HostDb) (itemid : ℕ) : HostDb :=
  { db with
    screensItems := db.screensItems.filter fun row =>
      ¬(row.resourceid = itemid ∧
        (row.resourcetype = screenResourcePlainText ∨ row.resourcetype = screenResourceSimpleGraph))
    graphsItems := db.graphsItems.filter (·.itemid ≠ itemid)
    itemsApplications := db.itemsApplications.filter (·.itemid ≠ itemid)
    items := db.items.filter (·.itemid ≠ itemid) }

/-- `select itemid from items where templateid=..` -/
def HostDb.linkedItems (db : HostDb) (itemid : ℕ) : List ℕ := (db.items.filter (·.templateid = itemid)).map Item.itemid

/-- `select triggerid from functions where itemid=..` -/
def HostDb.triggersOf (db : HostDb) (itemid : ℕ) : List ℕ :=
  (db.functions.filter (·.itemid = itemid)).map Function.triggerid

/-- There is such an item, and its host: the first select of `DBdelete_item`. -/
def HostDb.hosted (db : HostDb) (itemid : ℕ) : Bool :=
  ∃ row ∈ db.items, row.itemid = itemid ∧ ∃ h ∈ db.hosts, h.hostid = row.hostid

variable {schema : Schema} (nodeid : ℕ) (c : Column schema) (recount : RecountAnswers) (triggerDepth : ℕ)

/-- `DBdelete_triggers_by_itemid`, with up to `triggerDepth` calls of `DBdelete_trigger` nested. -/
def dbDeleteTriggersByItemid (db : HostDb) (itemid : ℕ) : Result :=
  untilFail (dbDeleteTrigger nodeid c recount triggerDepth) (db.triggersOf itemid) db

/-- `DBdelete_item`, with up to `depth` calls nested; `c` is `service_alarms.servicealarmid`. -/
def dbDeleteItem : (depth : ℕ) → (db : HostDb) → (itemid : ℕ) → Result
  | 0, _, _ => .error .deeper
  | depth + 1, db, itemid =>
      if db.hosted itemid then do
        let r ← untilFail (dbDeleteItem depth) (db.linkedItems itemid) db
        if r.1 then
          let r ← dbDeleteTriggersByItemid nodeid c recount triggerDepth r.2 itemid
          if r.1 then
            let db := dbDeleteHistoryByItemid r.2 itemid true
            .ok (true, db.deleteItemRows itemid)
          else .ok r
        else .ok r
      else .ok (true, db)

/-! ## what is to be deleted -/

/-- The item `b` is linked to the item `a`. -/
def HostDb.ItemLinked (db : HostDb) (a b : ℕ) : Prop := ∃ row ∈ db.items, row.templateid = a ∧ row.itemid = b

/-- What the deletion of items is for: they are gone, with the triggers that use them and all that shows them, and what
is stored of their values is gone, or will be. -/
structure ItemsDeleted (gone : Set ℕ) (db db' : HostDb) : Prop where
  items : ∀ row ∈ db'.items, row.itemid ∉ gone
  triggers : ∀ f ∈ db.functions, f.itemid ∈ gone → ¬db'.HasTrigger f.triggerid
  functions : ∀ f ∈ db'.functions, f.itemid ∉ gone
  graphsItems : ∀ row ∈ db'.graphsItems, row.itemid ∉ gone
  screensItems : ∀ row ∈ db'.screensItems,
    row.resourcetype = screenResourcePlainText ∨ row.resourcetype = screenResourceSimpleGraph → row.resourceid ∉ gone
  itemsApplications : ∀ row ∈ db'.itemsApplications, row.itemid ∉ gone
  values : ∀ table, ∀ itemid ∈ gone, itemid ∉ db'.values table ∨ ⟨table, itemid⟩ ∈ db'.housekeeper

/-- The items in the order in which they are deleted. -/
def HostDb.itemOrder (db : HostDb) (itemid : ℕ) : List ℕ :=
  postorder db.linkedItems db.hosted (db.items.length + 1) itemid

/-- The triggers that are used with some items. -/
def HostDb.named (db : HostDb) (items : List ℕ) : Set ℕ := {b | ∃ itemid ∈ items, b ∈ db.triggersOf itemid}

/-- Triggers that can be deleted one after the other: they are there, and none is one of those before it, or linked
below one. -/
def HostDb.OneByOne (db : HostDb) (triggers : List ℕ) : Prop :=
  (∀ b ∈ triggers, db.HasTrigger b) ∧ triggers.Pairwise fun a b => ¬ReflTransGen db.TriggerLinked a b

/-- The triggers of each item can be deleted one after the other, but for those that have been deleted with an item
before it. -/
def HostDb.Deletable (db : HostDb) : (before items : List ℕ) → Prop
  | _, [] => True
  | before, itemid :: items =>
      db.OneByOne (without (Under db.TriggerLinked (db.named before)) id (db.triggersOf itemid)) ∧
        db.Deletable (before ++ [itemid]) items

/-! ## triggers one after the other -/

variable {db db' : HostDb} {nodeid} {c} {recount} {triggerDepth}

theorem hasTrigger_iff {b : ℕ} : db.HasTrigger b ↔ ∃ a, db.TriggerLinked a b := by
  simp only [HostDb.HasTrigger, HostDb.TriggerLinked, List.mem_map]
  constructor
  · rintro ⟨row, hrow, hid⟩
    exact ⟨row.templateid, row, hrow, rfl, hid⟩
  · rintro ⟨a, row, hrow, -, hid⟩
    exact ⟨row, hrow, hid⟩

/-- A trigger that is left. -/
theorem hasTrigger_rest {gone : Set ℕ} (h : ∀ a b, db'.TriggerLinked a b ↔ db.TriggerLinked a b ∧ b ∉ gone) {b : ℕ} :
    db'.HasTrigger b ↔ db.HasTrigger b ∧ b ∉ gone := by
  simp only [hasTrigger_iff, h, exists_and_right]

/-- The linkage of the triggers, and a number of nested calls that is enough for it. -/
structure TriggerHeights (db : HostDb) (triggerDepth : ℕ) (height : ℕ → ℕ) : Prop where
  acyclic : Acyclic db.TriggerLinked
  key : (db.triggers.map Trigger.triggerid).Nodup
  lt : ∀ a b, db.TriggerLinked a b → height b < height a
  lt_depth : ∀ a, height a < triggerDepth

theorem TriggerHeights.mono {height : ℕ → ℕ} (h : TriggerHeights db triggerDepth height)
    (hmono : ∀ a b, db'.TriggerLinked a b → db.TriggerLinked a b) (hkey : (db'.triggers.map Trigger.triggerid).Nodup) :
    TriggerHeights db' triggerDepth height where
  acyclic := fun a haa => h.acyclic a (TransGen.mono hmono a a haa)
  key := hkey
  lt := fun a b hab => h.lt a b (hmono a b hab)
  lt_depth := h.lt_depth

/-- **Triggers are deleted one after the other** if and only if they can be; nothing else but services stops it. -/
theorem deleteTriggers_ends {height : ℕ → ℕ} (hheights : TriggerHeights db triggerDepth height) {triggers : List ℕ}
    {E : Prop}
    (hE : ∀ row ∈ db.services.services, ∀ b ∈ Under db.TriggerLinked {b | b ∈ triggers}, row.triggerid = some b → E) :
    Ends (fun _ => E)
      (fun r => (r.1 = true ↔ db.OneByOne triggers) ∧
        (r.1 = true → TriggersRest (Under db.TriggerLinked {b | b ∈ triggers}) db r.2))
      (untilFail (dbDeleteTrigger nodeid c recount triggerDepth) triggers db) := by
  have hloop : ∀ rest done s, done ++ rest = triggers → TriggersRest (Under db.TriggerLinked {b | b ∈ done}) db s →
      Ends (fun _ => E)
        (fun r => (r.1 = true ↔ db.OneByOne rest ∧ ∀ b ∈ rest, b ∉ Under db.TriggerLinked {b | b ∈ done}) ∧
          (r.1 = true → TriggersRest (Under db.TriggerLinked {b | b ∈ triggers}) db r.2))
        (untilFail (dbDeleteTrigger nodeid c recount triggerDepth) rest s) := by
    intro rest
    induction rest with
    | nil =>
        intro done s hdone hs
        rw [List.append_nil] at hdone
        refine .ok ⟨by simp [HostDb.OneByOne], fun _ => ?_⟩
        rwa [hdone] at hs
    | cons a rest ih =>
        intro done s hdone hs
        have hmono : ∀ x y, s.TriggerLinked x y → db.TriggerLinked x y := fun x y hxy => ((hs.linked x y).mp hxy).1
        have hthere := hasTrigger_rest hs.linked (b := a)
        have hsplit : db.OneByOne (a :: rest) ∧ (∀ b ∈ a :: rest, b ∉ Under db.TriggerLinked {b | b ∈ done}) ↔
            s.HasTrigger a ∧ db.OneByOne rest ∧ ∀ b ∈ rest, b ∉ Under db.TriggerLinked {b | b ∈ done ++ [a]} := by
          have hunder : ∀ b, b ∈ Under db.TriggerLinked {b | b ∈ done ++ [a]} ↔
              b ∈ Under db.TriggerLinked {b | b ∈ done} ∨ ReflTransGen db.TriggerLinked a b := by
            intro b
            have happend : {b | b ∈ done ++ [a]} = {b | b ∈ done} ∪ {a} := by
              ext b
              simp [or_comm]
            rw [happend, under_union, Set.mem_union, mem_under_singleton]
          rw [hthere]
          simp only [HostDb.OneByOne, List.forall_mem_cons, List.pairwise_cons, hunder, not_or]
          constructor
          · rintro ⟨⟨⟨ha, hrest⟩, hbelow, hpairwise⟩, hgone, hrest'⟩
            exact ⟨⟨ha, hgone⟩, ⟨hrest, hpairwise⟩, fun b hb => ⟨hrest' b hb, hbelow b hb⟩⟩
          · rintro ⟨⟨ha, hgone⟩, ⟨hrest, hpairwise⟩, hboth⟩
            exact ⟨⟨⟨ha, hrest⟩, fun b hb => (hboth b hb).2, hpairwise⟩, hgone, fun b hb => (hboth b hb).1⟩
        rw [hsplit]
        by_cases ha : s.HasTrigger a
        · obtain ⟨row, hrow, hid⟩ := List.mem_map.mp ha
          have hs' := hheights.mono hmono (hs.key hheights.key)
          have hcall := @dbDeleteTrigger_ends schema nodeid c recount s a hs'.acyclic hs'.key _ hs'.lt triggerDepth
            (hs'.lt_depth a) ⟨row, hrow, hid⟩
          rw [untilFail]
          cases hcallr : dbDeleteTrigger nodeid c recount triggerDepth s a with
          | error stop =>
              rw [hcallr] at hcall
              cases hcall with
              | error hstop =>
                  obtain ⟨row, hrow, b, hb, hrowb⟩ := hstop
                  obtain ⟨services, hservices⟩ := hs.services
                  obtain ⟨old, hold, -, holdb⟩ := hservices.triggerid row hrow b hrowb
                  refine .error (hE old hold b ⟨a, ?_, ReflTransGen.mono hmono _ _ (mem_under_singleton.mp hb)⟩ holdb)
                  change a ∈ triggers
                  rw [← hdone]
                  simp
          | ok r =>
              rw [hcallr] at hcall
              cases hcall with
              | ok htrue =>
                  have hr : r = (true, r.2) := Prod.ext htrue rfl
                  have hrest := hs.delete (dbDeleteTrigger_rest (hcallr.trans (congrArg Except.ok hr)))
                  rw [ok_bind, htrue, if_pos rfl]
                  refine (ih (done ++ [a]) r.2 (by rw [List.append_assoc, List.singleton_append, hdone]) hrest).mono ?_
                  rintro r' ⟨hiff, hr'⟩
                  exact ⟨hiff.trans ⟨fun h => ⟨ha, h⟩, And.right⟩, hr'⟩
        · have hcall : dbDeleteTrigger nodeid c recount triggerDepth s a = .ok (false, s) := by
            have hpos := hheights.lt_depth a
            obtain ⟨depth, rfl⟩ := Nat.exists_eq_succ_of_ne_zero (show triggerDepth ≠ 0 by omega)
            have hnone : ¬∃ row ∈ s.triggers, row.triggerid = a := by
              rintro ⟨row, hrow, hid⟩
              exact ha (List.mem_map.mpr ⟨row, hrow, hid⟩)
            rw [dbDeleteTrigger, if_neg hnone]
          rw [untilFail, hcall, ok_bind, if_neg Bool.false_ne_true]
          exact .ok ⟨⟨fun h => absurd h Bool.false_ne_true, fun h => absurd h.1 ha⟩,
            fun h => absurd h Bool.false_ne_true⟩
  refine (hloop triggers [] db rfl (by simpa using TriggersRest.refl db)).mono ?_
  rintro r ⟨hiff, hr⟩
  refine ⟨hiff.trans ⟨And.left, fun h => ⟨h, fun b _ => ?_⟩⟩, hr⟩
  simp [Under]

/-! ## what is left without some items -/

theorem mem_linkedItems (db : HostDb) (a b : ℕ) : b ∈ db.linkedItems a ↔ db.ItemLinked a b := by
  simp [HostDb.linkedItems, HostDb.ItemLinked, and_assoc]

theorem named_append (db : HostDb) (items : List ℕ) (itemid : ℕ) :
    db.named (items ++ [itemid]) = db.named items ∪ {b | b ∈ db.triggersOf itemid} := by
  ext b
  simp [HostDb.named, or_and_right, exists_or]

theorem deletable_append (db : HostDb) (before items items' : List ℕ) :
    db.Deletable before (items ++ items') ↔ db.Deletable before items ∧ db.Deletable (before ++ items) items' := by
  induction items generalizing before with
  | nil => simp [HostDb.Deletable]
  | cons itemid items ih =>
      rw [List.cons_append, HostDb.Deletable, HostDb.Deletable, ih, List.append_assoc, List.singleton_append, and_assoc]

/-- What is left when some items have been deleted. -/
structure ItemsRest (done : List ℕ) (db db' : HostDb) : Prop where
  items : db'.items = without {b | b ∈ done} Item.itemid db.items
  hosts : db'.hosts = db.hosts
  linked : ∀ a b, db'.TriggerLinked a b ↔ db.TriggerLinked a b ∧ b ∉ Under db.TriggerLinked (db.named done)
  key : (db.triggers.map Trigger.triggerid).Nodup → (db'.triggers.map Trigger.triggerid).Nodup
  functions : db'.functions = without (Under db.TriggerLinked (db.named done)) Function.triggerid db.functions
  services : ∀ row ∈ db'.services.services, ∀ b, row.triggerid = some b →
    ∃ old ∈ db.services.services, old.triggerid = some b
  graphsItems : ∀ row ∈ db'.graphsItems, row.itemid ∉ done
  screensItems : ∀ row ∈ db'.screensItems,
    row.resourcetype = screenResourcePlainText ∨ row.resourcetype = screenResourceSimpleGraph → row.resourceid ∉ done
  itemsApplications : ∀ row ∈ db'.itemsApplications, row.itemid ∉ done
  values : db'.values = db.values
  housekeeper : ∀ row, row ∈ db'.housekeeper ↔
    row ∈ db.housekeeper ∨ row.value ∈ done ∧ row.tablename ≠ .trendsUint

theorem ItemsRest.refl (db : HostDb) : ItemsRest [] db db where
  items := by simp
  hosts := rfl
  linked := by simp [HostDb.named]
  key := id
  functions := by simp [HostDb.named]
  services := fun row hrow b hb => ⟨row, hrow, hb⟩
  graphsItems := by simp
  screensItems := by simp
  itemsApplications := by simp
  values := rfl
  housekeeper := by simp

/-- The triggers of an item are those that have not been deleted with other items. -/
theorem ItemsRest.triggersOf {items : List ℕ} (h : ItemsRest items db db') (itemid : ℕ) :
    db'.triggersOf itemid = without (Under db.TriggerLinked (db.named items)) id (db.triggersOf itemid) := by
  rw [HostDb.triggersOf, h.functions, map_filter_without, ← HostDb.triggersOf]

/-- The items that are linked to one are still there, if they have not been deleted. -/
theorem ItemsRest.linkedItems {items : List ℕ} (h : ItemsRest items db db') {itemid : ℕ}
    (hkids : ∀ b, db.ItemLinked itemid b → b ∉ items) : db'.linkedItems itemid = db.linkedItems itemid := by
  rw [HostDb.linkedItems, h.items, map_filter_without, ← HostDb.linkedItems]
  exact without_of_not_mem fun b hb => hkids b ((mem_linkedItems db itemid b).mp hb)

theorem ItemsRest.hosted {items : List ℕ} (h : ItemsRest items db db') {itemid : ℕ} (hitemid : itemid ∉ items) :
    db'.hosted itemid = db.hosted itemid := by
  rw [HostDb.hosted, HostDb.hosted, h.hosts, h.items, Bool.eq_iff_iff]
  simp only [decide_eq_true_eq, mem_without, Set.mem_ofPred_eq]
  constructor
  · rintro ⟨row, ⟨hrow, -⟩, hid, hhost⟩
    exact ⟨row, hrow, hid, hhost⟩
  · rintro ⟨row, hrow, rfl, hhost⟩
    exact ⟨row, ⟨hrow, hitemid⟩, rfl, hhost⟩

/-- What lies below the triggers of one more item. -/
theorem ItemsRest.under_triggersOf {items : List ℕ} (h : ItemsRest items db db') (itemid : ℕ) :
    Under db.TriggerLinked (db.named items) ∪ Under db'.TriggerLinked {b | b ∈ db'.triggersOf itemid} =
      Under db.TriggerLinked (db.named (items ++ [itemid])) := by
  rw [Removes.under_union h.linked, named_append]
  refine under_union_of_not_mem fun a => ?_
  rw [Set.mem_ofPred_eq, h.triggersOf, mem_without]
  rfl

/-- That triggers can be deleted one after the other has nothing to do with those that are gone. -/
theorem ItemsRest.oneByOne_iff {items : List ℕ} (h : ItemsRest items db db') (itemid : ℕ) :
    db'.OneByOne (db'.triggersOf itemid) ↔
      db.OneByOne (without (Under db.TriggerLinked (db.named items)) id (db.triggersOf itemid)) := by
  rw [← h.triggersOf, HostDb.OneByOne, HostDb.OneByOne]
  have hleft : ∀ b ∈ db'.triggersOf itemid, b ∉ Under db.TriggerLinked (db.named items) := by
    intro b hb
    rw [h.triggersOf] at hb
    exact (mem_without.mp hb).2
  refine and_congr ?_ ?_
  · refine forall₂_congr fun b hb => ?_
    rw [hasTrigger_rest h.linked, and_iff_left (hleft b hb)]
  · refine List.Pairwise.iff_of_mem fun {a b} _ hb => ?_
    rw [Removes.below_iff h.linked (hleft b hb)]

/-- What is put into the queue of the housekeeper: all tables but one. -/
theorem dbDeleteHistoryByItemid_queue (db : HostDb) (itemid : ℕ) :
    ∃ rows, dbDeleteHistoryByItemid db itemid true = { db with housekeeper := db.housekeeper ++ rows } ∧
      ∀ row, row ∈ rows ↔ row.value = itemid ∧ row.tablename ≠ .trendsUint := by
  refine ⟨[⟨.trends, itemid⟩, ⟨.historyText, itemid⟩, ⟨.historyLog, itemid⟩, ⟨.historyUint, itemid⟩,
    ⟨.historyStr, itemid⟩, ⟨.history, itemid⟩], ?_, ?_⟩
  · simp [dbDeleteHistoryByItemid, dbDeleteTrendsByItemid, HostDb.queue]
  · rintro ⟨tablename, value⟩
    cases tablename <;> simp

/-- **The statements for one item**, when its triggers have been deleted. -/
theorem ItemsRest.statements {items : List ℕ} (h : ItemsRest items db db') {itemid : ℕ} {s : HostDb}
    (hs : TriggersRest (Under db'.TriggerLinked {b | b ∈ db'.triggersOf itemid}) db' s) :
    ItemsRest (items ++ [itemid]) db ((dbDeleteHistoryByItemid s itemid true).deleteItemRows itemid) := by
  have hitems : s.items = db'.items := hs.table HostDb.items fun _ => rfl
  have hhosts : s.hosts = db'.hosts := hs.table HostDb.hosts fun _ => rfl
  have hgraphsItems : s.graphsItems = db'.graphsItems := hs.table HostDb.graphsItems fun _ => rfl
  have hscreensItems : s.screensItems = db'.screensItems := hs.table HostDb.screensItems fun _ => rfl
  have happlications : s.itemsApplications = db'.itemsApplications := hs.table HostDb.itemsApplications fun _ => rfl
  have hvalues : s.values = db'.values := hs.table HostDb.values fun _ => rfl
  have hhousekeeper : s.housekeeper = db'.housekeeper := hs.table HostDb.housekeeper fun _ => rfl
  have hunion : {b | b ∈ items ++ [itemid]} = {b | b ∈ items} ∪ {itemid} := by
    ext b
    simp [or_comm]
  obtain ⟨rows, hqueue, hrows⟩ := dbDeleteHistoryByItemid_queue s itemid
  rw [hqueue]
  constructor
  case items =>
    rw [hunion, ← without_without, ← h.items, without_singleton, ← hitems]
    rfl
  case hosts => exact hhosts.trans h.hosts
  case linked =>
    intro a b
    change s.TriggerLinked a b ↔ _
    rw [hs.linked, h.linked, ← h.under_triggersOf, Set.mem_union, not_or, and_assoc]
  case key => exact fun hkey => hs.key (h.key hkey)
  case functions =>
    change s.functions = _
    rw [hs.functions, h.functions, without_without, h.under_triggersOf]
  case services =>
    intro row hrow b hb
    obtain ⟨services, hservices⟩ := hs.services
    obtain ⟨old, hold, -, holdb⟩ := hservices.triggerid row hrow b hb
    exact h.services old hold b holdb
  case graphsItems =>
    intro row hrow
    obtain ⟨hrow, hne⟩ := List.mem_filter.mp hrow
    have hold := h.graphsItems row (hgraphsItems ▸ hrow)
    simpa [hold] using hne
  case screensItems =>
    intro row hrow htype
    obtain ⟨hrow, hne⟩ := List.mem_filter.mp hrow
    have hold := h.screensItems row (hscreensItems ▸ hrow) htype
    simpa [hold, htype] using hne
  case itemsApplications =>
    intro row hrow
    obtain ⟨hrow, hne⟩ := List.mem_filter.mp hrow
    have hold := h.itemsApplications row (happlications ▸ hrow)
    simpa [hold] using hne
  case values => exact hvalues.trans h.values
  case housekeeper =>
    intro row
    change row ∈ s.housekeeper ++ rows ↔ _
    rw [List.mem_append, hrows, hhousekeeper, h.housekeeper, List.mem_append, List.mem_singleton, or_and_right,
      or_assoc]

/-! ## the deletion -/

/-- The linkage of the items. -/
structure ItemHeights (db : HostDb) (height : ℕ → ℕ) : Prop where
  acyclic : Acyclic db.ItemLinked
  key : (db.items.map Item.itemid).Nodup
  lt : ∀ a b, db.ItemLinked a b → height b < height a

theorem ItemHeights.parent {height : ℕ → ℕ} (h : ItemHeights db height) (a a' b : ℕ) (hab : db.ItemLinked a b)
    (hab' : db.ItemLinked a' b) : a = a' := by
  obtain ⟨row, hrow, rfl, hid⟩ := hab
  obtain ⟨row', hrow', rfl, hid'⟩ := hab'
  rw [List.inj_on_of_nodup_map h.key hrow hrow' (hid.trans hid'.symm)]

section

variable {itemHeight height : ℕ → ℕ} (hitems : ItemHeights db itemHeight)
  (htriggers : TriggerHeights db triggerDepth height) {E : Prop} {depth : ℕ}

/-- What a call for an item does, when some others have been deleted before. -/
def DeletesItem (db : HostDb) (E : Prop) (done order : List ℕ) : Except HostStop (Bool × HostDb) → Prop :=
  Ends (fun _ => E) fun r =>
    (r.1 = true ↔ db.Deletable done order) ∧ (r.1 = true → ItemsRest (done ++ order) db r.2)

include hitems in
/-- The loop over the items that are linked to one. -/
theorem deleteItems_ends {call : HostDb → ℕ → Result} {order : ℕ → List ℕ} {x : ℕ} {rest done : List ℕ} {s : HostDb}
    (hcall : ∀ a ∈ rest, ∀ done s, ItemsRest done db s → (∀ y, ReflTransGen db.ItemLinked a y → y ∉ done) →
      DeletesItem db E done (order a) (call s a))
    (horder : ∀ a, ∀ y ∈ order a, ReflTransGen db.ItemLinked a y) (hrest : ∀ a ∈ rest, db.ItemLinked x a)
    (hnodup : rest.Nodup) (hleft : ∀ a ∈ rest, ∀ y, ReflTransGen db.ItemLinked a y → y ∉ done)
    (hs : ItemsRest done db s) : DeletesItem db E done (rest.flatMap order) (untilFail call rest s) := by
  induction rest generalizing done s with
  | nil => exact .ok ⟨by simp [HostDb.Deletable], fun _ => by simpa using hs⟩
  | cons a rest ih =>
      obtain ⟨ha, hnodup⟩ := List.nodup_cons.mp hnodup
      have hfirst := hcall a List.mem_cons_self done s hs (hleft a List.mem_cons_self)
      rw [untilFail]
      refine Ends.bind hfirst ?_
      rintro r ⟨hiff, hr⟩
      cases htrue : r.1 with
      | true =>
          rw [if_pos rfl]
          have hleft' : ∀ b ∈ rest, ∀ y, ReflTransGen db.ItemLinked b y → y ∉ done ++ order a := by
            intro b hb y hby hy
            rcases List.mem_append.mp hy with hy | hy
            · exact hleft b (List.mem_cons_of_mem a hb) y hby hy
            · have hne : a ≠ b := fun heq => ha (heq ▸ hb)
              exact not_below_both hitems.acyclic hitems.parent (hrest a List.mem_cons_self)
                (hrest b (List.mem_cons_of_mem a hb)) hne (horder a y hy) hby
          refine (ih (fun b hb => hcall b (List.mem_cons_of_mem a hb)) (fun b hb => hrest b (List.mem_cons_of_mem a hb))
            hnodup hleft' (hr htrue)).mono ?_
          rintro r' ⟨hiff', hr'⟩
          rw [List.flatMap_cons, deletable_append, ← List.append_assoc]
          exact ⟨hiff'.trans ⟨fun h => ⟨hiff.mp htrue, h⟩, And.right⟩, hr'⟩
      | false =>
          rw [if_neg Bool.false_ne_true]
          refine .ok ⟨?_, fun h => absurd (htrue.symm.trans h) Bool.false_ne_true⟩
          rw [List.flatMap_cons, deletable_append, ← hiff]
          exact ⟨fun h => absurd (htrue.symm.trans h) Bool.false_ne_true, And.left⟩

include hitems htriggers in
/-- **A call of `DBdelete_item`** deletes the items in their order, if and only if their triggers can be deleted. -/
theorem dbDeleteItem_deletes {x : ℕ} (hdepth : itemHeight x < depth) {done : List ℕ} {s : HostDb}
    (hs : ItemsRest done db s) (hleft : ∀ y, ReflTransGen db.ItemLinked x y → y ∉ done)
    (hE : ∀ row ∈ db.services.services, ∀ b ∈ Under db.TriggerLinked
      (db.named (postorder db.linkedItems db.hosted depth x)), row.triggerid = some b → E) :
    DeletesItem db E done (postorder db.linkedItems db.hosted depth x)
      (dbDeleteItem nodeid c recount triggerDepth depth s x) := by
  induction depth generalizing x done s with
  | zero => omega
  | succ depth ih =>
      rw [dbDeleteItem, hs.hosted (hleft x .refl)]
      rw [postorder] at hE ⊢
      by_cases hhosted : db.hosted x = true
      · rw [if_pos hhosted] at hE ⊢
        rw [if_pos hhosted, hs.linkedItems fun b hb => hleft b (.single hb)]
        have hkids : ∀ a ∈ db.linkedItems x, db.ItemLinked x a := fun a => (mem_linkedItems db x a).mp
        have hmono : ∀ {ys zs : List ℕ}, ys ⊆ zs → Under db.TriggerLinked (db.named ys) ⊆
            Under db.TriggerLinked (db.named zs) := by
          rintro ys zs hsub b ⟨t, ⟨y, hy, ht⟩, htb⟩
          exact ⟨t, ⟨y, hsub hy, ht⟩, htb⟩
        have hloop : DeletesItem db E done ((db.linkedItems x).flatMap (postorder db.linkedItems db.hosted depth))
            (untilFail (dbDeleteItem nodeid c recount triggerDepth depth) (db.linkedItems x) s) := by
          refine deleteItems_ends hitems ?_ (fun a y hy => (below_of_mem_postorder (mem_linkedItems db) hy).1) hkids
            (hitems.key.sublist (List.filter_sublist.map _)) (fun a ha y hay => hleft y (.head (hkids a ha) hay)) hs
          intro a ha done s hs hleft
          have hlt := hitems.lt x a (hkids a ha)
          refine ih (by omega) hs hleft fun row hrow b hb => hE row hrow b (hmono ?_ hb)
          exact fun y hy => List.mem_append_left _ (List.mem_flatMap.mpr ⟨a, ha, hy⟩)
        refine Ends.bind hloop ?_
        rintro r ⟨hiff, hr⟩
        rw [deletable_append, ← List.append_assoc]
        by_cases htrue : r.1 = true
        · rw [if_pos htrue, dbDeleteTriggersByItemid]
          have hrest := hr htrue
          have htriggers' := htriggers.mono (fun a b hab => ((hrest.linked a b).mp hab).1) (hrest.key htriggers.key)
          have hstop : ∀ row ∈ r.2.services.services,
              ∀ b ∈ Under r.2.TriggerLinked {b | b ∈ r.2.triggersOf x}, row.triggerid = some b → E := by
            intro row hrow b hb hrowb
            obtain ⟨old, hold, holdb⟩ := hrest.services row hrow b hrowb
            obtain ⟨t, ht, htb⟩ := hb
            have ht : t ∈ r.2.triggersOf x := ht
            rw [hrest.triggersOf] at ht
            refine hE old hold b ⟨t, ⟨x, List.mem_append_right _ (List.mem_singleton_self x), (mem_without.mp ht).1⟩, ?_⟩
              holdb
            exact ReflTransGen.mono (fun a b hab => ((hrest.linked a b).mp hab).1) _ _ htb
          refine Ends.bind (deleteTriggers_ends htriggers' hstop) ?_
          rintro r' ⟨hiff', hr'⟩
          have hdeletable : db.Deletable (done ++ (db.linkedItems x).flatMap (postorder db.linkedItems db.hosted depth))
              [x] ↔ r'.1 = true := by
            rw [hiff', HostDb.Deletable, HostDb.Deletable, and_true, hrest.oneByOne_iff]
          rw [hdeletable, ← hiff]
          by_cases htrue' : r'.1 = true
          · rw [if_pos htrue']
            exact .ok ⟨iff_of_true rfl ⟨htrue, htrue'⟩, fun _ => hrest.statements (hr' htrue')⟩
          · rw [if_neg htrue']
            exact .ok ⟨iff_of_false htrue' fun h => htrue' h.2, fun h => absurd h htrue'⟩
        · rw [if_neg htrue]
          exact .ok ⟨iff_of_false htrue fun h => htrue (hiff.mpr h.1), fun h => absurd h htrue⟩
      · rw [if_neg hhosted, if_neg hhosted]
        exact .ok ⟨iff_of_true rfl trivial, fun _ => by simpa using hs⟩

end

/-- The keys of `items` and `triggers` are unique. -/
structure HostDb.Keyed (db : HostDb) : Prop where
  items : (db.items.map Item.itemid).Nodup
  triggers : (db.triggers.map Trigger.triggerid).Nodup

/-- What `DBdelete_item` needs: each of the items has its host, their triggers can be deleted, and of `trends_uint`,
which nothing is done for, nothing is to be deleted. -/
structure HostDb.ItemDeletable (db : HostDb) (itemid : ℕ) : Prop where
  hosted : ∀ y ∈ Under db.ItemLinked {itemid}, db.hosted y = true
  triggers : db.Deletable [] (db.itemOrder itemid)
  trendsUint : ∀ y ∈ Under db.ItemLinked {itemid}, y ∉ db.values .trendsUint ∨ ⟨.trendsUint, y⟩ ∈ db.housekeeper

/-- Heights in a table in which each row names another one. -/
theorem exists_height_of_table {ρ : Type} {rows : List ρ} {id : ρ → ℕ} {linked : ℕ → ℕ → Prop}
    (hacyclic : Acyclic linked) (hrows : ∀ a b, linked a b → ∃ row ∈ rows, id row = b) :
    ∃ height : ℕ → ℕ, (∀ a, height a ≤ rows.length) ∧ ∀ a b, linked a b → height b < height a := by
  obtain ⟨height, hle, hlt⟩ := exists_height hacyclic (rows.map id).toFinset fun a b hab =>
    List.mem_toFinset.mpr (List.mem_map.mpr (hrows a b hab))
  refine ⟨height, fun a => (hle a).trans ((List.toFinset_card_le _).trans ?_), hlt⟩
  rw [List.length_map]

/-- What `DBdelete_item` has deleted, when it has deleted all of the items. -/
theorem ItemsRest.deleted {gone : Set ℕ} {order : List ℕ} (h : ItemsRest order db db')
    (horder : ∀ y, y ∈ order ↔ y ∈ gone)
    (htrends : ∀ y ∈ gone, y ∉ db.values .trendsUint ∨ ⟨.trendsUint, y⟩ ∈ db.housekeeper) :
    ItemsDeleted gone db db' := by
  have hnamed : ∀ f ∈ db.functions, f.itemid ∈ gone → f.triggerid ∈ Under db.TriggerLinked (db.named order) := by
    intro f hf hgone
    refine ⟨f.triggerid, ⟨f.itemid, (horder _).mpr hgone, ?_⟩, .refl⟩
    exact List.mem_map.mpr ⟨f, List.mem_filter.mpr ⟨hf, decide_eq_true rfl⟩, rfl⟩
  constructor
  case items =>
    intro row hrow hgone
    rw [h.items] at hrow
    exact (mem_without.mp hrow).2 ((horder _).mpr hgone)
  case triggers => exact fun f hf hgone hthere => ((hasTrigger_rest h.linked).mp hthere).2 (hnamed f hf hgone)
  case functions =>
    intro f hf hgone
    rw [h.functions] at hf
    obtain ⟨hf, hleft⟩ := mem_without.mp hf
    exact hleft (hnamed f hf hgone)
  case graphsItems => exact fun row hrow hgone => h.graphsItems row hrow ((horder _).mpr hgone)
  case screensItems => exact fun row hrow htype hgone => h.screensItems row hrow htype ((horder _).mpr hgone)
  case itemsApplications => exact fun row hrow hgone => h.itemsApplications row hrow ((horder _).mpr hgone)
  case values =>
    intro table y hy
    rw [h.values, h.housekeeper]
    by_cases htable : table = .trendsUint
    · rw [htable]
      exact (htrends y hy).imp_right .inl
    · exact .inr (.inr ⟨(horder y).mpr hy, htable⟩)

/-- **The deletion of an item** succeeds, and deletes the item with those that are linked below it and all that belongs
to them, if and only if it can; nothing stops it but the services of the triggers that are deleted. -/
theorem dbDeleteItem_deleted_iff {schema : Schema} (nodeid : ℕ) (c : Column schema) (recount : RecountAnswers)
    {db : HostDb} (hitems : Acyclic db.ItemLinked) (htriggers : Acyclic db.TriggerLinked) (hkeyed : db.Keyed)
    {itemid : ℕ} (hitem : ∃ row ∈ db.items, row.itemid = itemid) {triggerDepth depth : ℕ}
    (htriggerDepth : db.triggers.length < triggerDepth) (hdepth : db.items.length < depth) :
    Ends
      (fun _ => ∃ row ∈ db.services.services, ∃ b ∈ Under db.TriggerLinked (db.named (db.itemOrder itemid)),
        row.triggerid = some b)
      (fun r => r.1 = true ∧ ItemsDeleted (Under db.ItemLinked {itemid}) db r.2 ↔ db.ItemDeletable itemid)
      (dbDeleteItem nodeid c recount triggerDepth depth db itemid) := by
  obtain ⟨itemHeight, hitemLe, hitemLt⟩ :=
    exists_height_of_table hitems fun a b ⟨row, hrow, _, hid⟩ => ⟨row, hrow, hid⟩
  obtain ⟨height, hle, hlt⟩ := exists_height_of_table htriggers fun a b ⟨row, hrow, _, hid⟩ => ⟨row, hrow, hid⟩
  have hitemDepth := (hitemLe itemid).trans_lt hdepth
  have horder : db.itemOrder itemid = postorder db.linkedItems db.hosted depth itemid :=
    postorder_depth (mem_linkedItems db) hitemLt (Nat.lt_succ_of_le (hitemLe itemid)) hitemDepth
  have hcall : DeletesItem db (∃ row ∈ db.services.services,
      ∃ b ∈ Under db.TriggerLinked (db.named (db.itemOrder itemid)), row.triggerid = some b) [] (db.itemOrder itemid)
      (dbDeleteItem nodeid c recount triggerDepth depth db itemid) := by
    rw [horder]
    exact dbDeleteItem_deletes ⟨hitems, hkeyed.items, hitemLt⟩
      ⟨htriggers, hkeyed.triggers, hlt, fun a => (hle a).trans_lt htriggerDepth⟩ hitemDepth (.refl db)
      (fun y _ => List.not_mem_nil) fun row hrow b hb hrowb => ⟨row, hrow, b, hb, hrowb⟩
  refine Ends.mono hcall ?_
  rintro r ⟨hiff, hr⟩
  have hbelow : ∀ y ∈ db.itemOrder itemid, y ∈ Under db.ItemLinked {itemid} ∧ db.hosted y = true := by
    intro y hy
    rw [horder] at hy
    obtain ⟨hbelow, hhosted⟩ := below_of_mem_postorder (mem_linkedItems db) hy
    exact ⟨mem_under_singleton.mpr hbelow, hhosted⟩
  constructor
  · rintro ⟨htrue, hdeleted⟩
    have hrest := hr htrue
    rw [List.nil_append] at hrest
    refine ⟨fun y hy => ?_, hiff.mp htrue, fun y hy => ?_⟩
    · have hrow : ∃ row ∈ db.items, row.itemid = y := by
        rcases ReflTransGen.cases_tail (mem_under_singleton.mp hy) with rfl | ⟨z, -, row, hrow, -, hid⟩
        · exact hitem
        · exact ⟨row, hrow, hid⟩
      obtain ⟨row, hrow, rfl⟩ := hrow
      by_contra hhosted
      have hstays : row ∈ r.2.items := by
        rw [hrest.items]
        exact mem_without.mpr ⟨hrow, fun hmem => hhosted (hbelow _ hmem).2⟩
      exact hdeleted.items row hstays hy
    · have hvalues := hdeleted.values .trendsUint y hy
      rw [hrest.values, hrest.housekeeper] at hvalues
      exact hvalues.imp_right fun h => h.resolve_right fun h => h.2 rfl
  · intro hdeletable
    have htrue := hiff.mpr hdeletable.triggers
    have hrest := hr htrue
    rw [List.nil_append] at hrest
    refine ⟨htrue, hrest.deleted (fun y => ⟨fun hy => (hbelow y hy).1, fun hy => ?_⟩) hdeletable.trendsUint⟩
    rw [horder]
    exact mem_postorder (mem_linkedItems db) hitemLt hitemDepth
      (fun b hb => hdeletable.hosted b (mem_under_singleton.mpr hb)) (mem_under_singleton.mp hy)

/-- An item with a linked one, and a trigger of each, the second one linked to the first. -/
def linkedItemsDb : HostDb :=
  { HostDb.empty with
    hosts := [⟨1, [], 3⟩, ⟨2, [], 0⟩]
    items := [⟨21, 1, [], 0⟩, ⟨22, 2, [], 21⟩]
    functions := [⟨31, 21, 11, [], []⟩, ⟨32, 22, 12, [], []⟩]
    triggers := [plainTrigger 11 0 0, plainTrigger 12 11 0]
    graphsItems := [⟨1, 22, [], 0, 0, 0, 0, 0, 0⟩]
    values := fun table => if table = .history then [21, 22] else [] }

theorem acyclic_linkedItemsDb : Acyclic linkedItemsDb.ItemLinked ∧ Acyclic linkedItemsDb.TriggerLinked := by
  refine ⟨acyclic_of_lt id ?_, acyclic_of_lt id ?_⟩
  · rintro a b ⟨row, hrow, rfl, rfl⟩
    exact (by decide : ∀ row ∈ linkedItemsDb.items, row.templateid < row.itemid) row hrow
  · rintro a b ⟨row, hrow, rfl, rfl⟩
    exact (by decide : ∀ row ∈ linkedItemsDb.triggers, row.templateid < row.triggerid) row hrow

/-- Nothing stops the deletion of the first item. -/
theorem dbDeleteItem_linkedItems :
    Ends
      (fun _ => ∃ row ∈ linkedItemsDb.services.services, ∃ b ∈ Under linkedItemsDb.TriggerLinked
        (linkedItemsDb.named (linkedItemsDb.itemOrder 21)), row.triggerid = some b)
      (fun r => r.1 = true ∧ ItemsDeleted (Under linkedItemsDb.ItemLinked {21}) linkedItemsDb r.2 ↔
        linkedItemsDb.ItemDeletable 21)
      (dbDeleteItem 0 servicealarmid recountLastFirst 3 3 linkedItemsDb 21) :=
  have hkeyed : linkedItemsDb.Keyed := ⟨by decide, by decide⟩
  have hitem : ∃ row ∈ linkedItemsDb.items, row.itemid = 21 := by decide
  dbDeleteItem_deleted_iff 0 servicealarmid recountLastFirst acyclic_linkedItemsDb.1 acyclic_linkedItemsDb.2 hkeyed
    hitem (by decide) (by decide)

/-- An item that a trigger uses twice, and one with values in `trends_uint`. -/
def stayingItemsDb : HostDb :=
  { HostDb.empty with
    hosts := [⟨1, [], 0⟩]
    items := [⟨21, 1, [], 0⟩, ⟨22, 1, [], 0⟩]
    functions := [⟨31, 21, 11, [], []⟩, ⟨32, 21, 11, [], []⟩]
    triggers := [plainTrigger 11 0 0]
    values := fun table => if table = .trendsUint then [22] else [] }

/-- The first item stays; the second one is gone, and its values stay. -/
theorem not_dbDeleteItem_stayingItems :
    (∃ db', dbDeleteItem 0 servicealarmid recountLastFirst 2 3 stayingItemsDb 21 = .ok (false, db') ∧
        db'.items = stayingItemsDb.items ∧ db'.triggers = []) ∧
      ∃ db', dbDeleteItem 0 servicealarmid recountLastFirst 2 3 stayingItemsDb 22 = .ok (true, db') ∧
        db'.items.map Item.itemid = [21] ∧
        ¬ItemsDeleted (Under stayingItemsDb.ItemLinked {22}) stayingItemsDb db' := by
  refine ⟨⟨_, rfl, rfl, rfl⟩, _, rfl, rfl, fun hdeleted => ?_⟩
  have h := hdeleted.values .trendsUint 22 (mem_under_singleton.mpr .refl)
  revert h
  decide

end Zabbix.Host
