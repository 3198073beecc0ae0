import Zabbix.DbCache.ProxyItems
import Zabbix.Lib.Run

/-!
# Zabbix.DbCache.Nextchecks

The next checks that a poller collects: `DCinit_nextchecks`, `DCadd_nextcheck` and
`DCflush_nextchecks` of `libs/zbxdbcache/nextchecks.c`.

The array is sorted by item.  An item that is added again takes the place of its entry if its time is
later, and is left out otherwise.

* `Nextchecks.run_spec` — what the array holds after any calls;
* `nextchecks_collected` — the array, and what its flush executes.
-/

namespace Zabbix

open Ascii Printf

/-! ## The array -/

/-- `ZBX_DC_NEXTCHECK` -/
structure Nextcheck where
  itemid : UInt64
  now : ℤ
  nextcheck : ℤ
  errorMsg : Option (List UInt8)
deriving DecidableEq

/-- `nextchecks`, with its entries up to `nextcheck_num`. -/
structure Nextchecks where
  allocated : ℕ
  entries : List Nextcheck
  pos : 0 < allocated
  length_le : entries.length ≤ allocated

/-- `DCinit_nextchecks` -/
def dcInitNextchecks (s : Nextchecks) : Nextchecks := ⟨s.allocated, [], s.pos, Nat.zero_le _⟩

/-- `DCget_nextcheck_nearestindex` -/
def dcGetNextcheckNearestindex (itemid : UInt64) (entries : List Nextcheck) : ℕ :=
  Nearest.nearest Nextcheck.itemid itemid entries

/-- The entries that a new one of the item is put among, `none` where it is not put in. -/
def deleteOlder (entries : List Nextcheck) (i : ℕ) (e : Nextcheck) : Option (List Nextcheck) :=
  match entries[i]? with
  | none => some entries
  | some x => if x.itemid = e.itemid then if x.now < e.now then some (entries.eraseIdx i) else none else some entries

/-- `memmove` and the new entry. -/
def insertAt (entries : List Nextcheck) (i : ℕ) (e : Nextcheck) : List Nextcheck :=
  entries.take i ++ e :: entries.drop i

theorem length_deleteOlder {entries kept : List Nextcheck} {i : ℕ} {e : Nextcheck}
    (h : deleteOlder entries i e = some kept) : kept.length ≤ entries.length := by
  rw [deleteOlder] at h
  split at h
  · rw [← Option.some.inj h]
  · split at h
    · split at h
      · rw [← Option.some.inj h]
        exact List.length_eraseIdx_le _ _
      · cases h
    · rw [← Option.some.inj h]

theorem length_insertAt (entries : List Nextcheck) (i : ℕ) (e : Nextcheck) :
    (insertAt entries i e).length = entries.length + 1 := by
  rw [insertAt, List.length_append, List.length_cons, ← Nat.add_assoc, ← List.length_append, List.take_append_drop]

/-- The growth of the array to where one more entry fits. -/
def growNextchecks (allocated num : ℕ) : ℕ := if allocated = num then allocated * 2 else allocated

theorem lt_growNextchecks {allocated num : ℕ} (hpos : 0 < allocated) (hle : num ≤ allocated) :
    num < growNextchecks allocated num := by
  rw [growNextchecks]
  split <;> omega

theorem length_insertAt_le {s : Nextchecks} {i : ℕ} {e : Nextcheck} {kept : List Nextcheck}
    (h : deleteOlder s.entries i e = some kept) :
    (insertAt kept i e).length ≤ growNextchecks s.allocated kept.length := by
  rw [length_insertAt]
  exact lt_growNextchecks s.pos ((length_deleteOlder h).trans s.length_le)

theorem growNextchecks_pos {allocated : ℕ} (hpos : 0 < allocated) (num : ℕ) : 0 < growNextchecks allocated num := by
  rw [growNextchecks]
  split <;> omega

/-- The part of `DCadd_nextcheck` behind the time of the next check: `e` is put into the array. -/
def Nextchecks.add (s : Nextchecks) (e : Nextcheck) : Nextchecks :=
  let i := dcGetNextcheckNearestindex e.itemid s.entries
  match h : deleteOlder s.entries i e with
  | none => s
  | some kept =>
      ⟨growNextchecks s.allocated kept.length, insertAt kept i e, growNextchecks_pos s.pos _, length_insertAt_le h⟩

/-- `DB_ITEM`, as `DCadd_nextcheck` reads and sets it. -/
structure CheckedItem where
  itemid : UInt64
  type : ℤ
  delay : ℤ
  delayFlex : List UInt8
  status : Int32
  nextcheck : ℤ

/-- The arguments of `DCadd_nextcheck`. -/
structure NextcheckCall where
  item : CheckedItem
  now : ℤ
  timediff : ℤ
  errorMsg : Option (List UInt8)

/-- The item after the check.  `overflow` is what the machine makes of a next check that an `int` cannot hold. -/
def NextcheckCall.checked (cal : Calendar) (overflow refreshUnsupported : ℤ) (c : NextcheckCall) : CheckedItem :=
  match c.errorMsg with
  | some _ => { c.item with status := itemStatusNotsupported, nextcheck := c.now + refreshUnsupported }
  | none =>
      { c.item with
        nextcheck :=
          (calculateItemNextcheck cal c.item.itemid c.item.type c.item.delay c.item.delayFlex
            (c.now - c.timediff)).getD overflow + c.timediff }

/-- What a call puts into the array. -/
def NextcheckCall.entry (cal : Calendar) (overflow refreshUnsupported : ℤ) (c : NextcheckCall) : Nextcheck :=
  ⟨c.item.itemid, c.now, (c.checked cal overflow refreshUnsupported).nextcheck, c.errorMsg⟩

/-- `DCadd_nextcheck`: the item and the array. -/
def dcAddNextcheck (cal : Calendar) (overflow refreshUnsupported : ℤ) (s : Nextchecks) (c : NextcheckCall) :
    CheckedItem × Nextchecks :=
  (c.checked cal overflow refreshUnsupported, s.add (c.entry cal overflow refreshUnsupported))

/-- The array after calls of `DCadd_nextcheck`. -/
def Nextchecks.run (cal : Calendar) (overflow refreshUnsupported : ℤ) (s : Nextchecks) (calls : List NextcheckCall) :
    Nextchecks :=
  Run.run (fun s c => (dcAddNextcheck cal overflow refreshUnsupported s c).2) s calls

/-! ## The flush -/

/-- `ITEM_ERROR_LEN` -/
def itemErrorLen : ℕ := 128

/-- The statement of an entry, in the buffer. -/
def Nextcheck.sql (b : Backend) (e : Nextcheck) : List UInt8 :=
  let sql := zbxSnprintfAlloc [] 64 (bytes "update items set nextcheck=" ++ d32 (Int32.ofInt e.nextcheck))
  let sql :=
    match e.errorMsg with
    | none => sql
    | some errorMsg =>
        let errorEsc := dbDynEscapeStringLen b errorMsg itemErrorLen
        zbxSnprintfAlloc sql (128 + errorEsc.length)
          (bytes ",status=" ++ d32 itemStatusNotsupported ++ bytes ",lastclock=" ++ d32 (Int32.ofInt e.now) ++
            bytes ",error='" ++ errorEsc ++ bytes "'")
  zbxSnprintfAlloc sql 64 (bytes " where itemid=" ++ ui64 e.itemid ++ bytes ";\n")

/-- `DCflush_nextchecks`: the texts that are executed. -/
def dcFlushNextchecks (b : Backend) (s : Nextchecks) : List (List UInt8) :=
  if s.entries = [] then []
  else
    (SqlBatch.chunks (sqlFrame b) (Nextcheck.sql b) zbxMaxSqlSize [] s.entries).map
      ((sqlFrame b).text (Nextcheck.sql b))

/-! ## What the array holds -/

/-- Deleting an entry and inserting another one in its place sets it. -/
theorem insertAt_eraseIdx {entries : List Nextcheck} {i : ℕ} (h : i < entries.length) (e : Nextcheck) :
    insertAt (entries.eraseIdx i) i e = entries.set i e := by
  have htake : (entries.take i).length = i := List.length_take_of_le h.le
  rw [insertAt, List.eraseIdx_eq_take_drop_succ, List.set_eq_take_append_cons_drop, if_pos h,
    List.take_append_of_le_length htake.ge, List.take_of_length_le htake.le, List.drop_append_of_le_length htake.ge,
    List.drop_of_length_le htake.le, List.nil_append]

theorem Nextchecks.add_of_none {s : Nextchecks} {e : Nextcheck}
    (h : deleteOlder s.entries (dcGetNextcheckNearestindex e.itemid s.entries) e = none) : s.add e = s := by
  rw [add]
  split
  · rfl
  · next hsome => rw [h] at hsome; cases hsome

theorem Nextchecks.add_of_some {s : Nextchecks} {e : Nextcheck} {kept : List Nextcheck}
    (h : deleteOlder s.entries (dcGetNextcheckNearestindex e.itemid s.entries) e = some kept) :
    (s.add e).entries = insertAt kept (dcGetNextcheckNearestindex e.itemid s.entries) e := by
  rw [add]
  split
  · next hnone => rw [h] at hnone; cases hnone
  · next hsome => rw [Option.some.inj (h.symm.trans hsome)]

/-- An item that is not there gets a new entry. -/
theorem Nextchecks.add_of_not_mem {s : Nextchecks} {e : Nextcheck} (h : ∀ x ∈ s.entries, x.itemid ≠ e.itemid) :
    (s.add e).entries = Nearest.insert Nextcheck.itemid e s.entries := by
  refine add_of_some ?_
  rw [deleteOlder]
  split
  · rfl
  · next x hx => rw [if_neg (h x (List.mem_of_getElem? hx))]

/-- An entry takes the place of an earlier one of its item, and is left out behind one that is no earlier. -/
theorem Nextchecks.add_spec {s : Nextchecks} (hs : Nearest.Sorted Nextcheck.itemid s.entries) (e : Nextcheck) :
    Nearest.Sorted Nextcheck.itemid (s.add e).entries ∧
      ∀ y, y ∈ (s.add e).entries ↔
        (y = e ∧ ∀ x ∈ s.entries, x.itemid = e.itemid → x.now < e.now) ∨
          (y ∈ s.entries ∧ (y.itemid = e.itemid → e.now ≤ y.now)) := by
  by_cases hmem : ∃ x ∈ s.entries, x.itemid = e.itemid
  · obtain ⟨x, hx, hid⟩ := hmem
    have hget : s.entries[dcGetNextcheckNearestindex e.itemid s.entries]? = some x := Nearest.getElem?_nearest hs hx hid
    have hlt := (List.getElem?_eq_some_iff.mp hget).1
    have honly : ∀ y ∈ s.entries, y.itemid = e.itemid → y = x := fun y hy hyid =>
      hs.eq_of_mem hy hx (hyid.trans hid.symm)
    by_cases hnow : x.now < e.now
    · have hadd : (s.add e).entries = s.entries.set (dcGetNextcheckNearestindex e.itemid s.entries) e := by
        rw [← insertAt_eraseIdx hlt]
        refine add_of_some ?_
        rw [deleteOlder, hget]
        exact (if_pos hid).trans (if_pos hnow)
      rw [hadd]
      refine ⟨hs.set hget hid.symm, fun y => ?_⟩
      rw [hs.mem_set hget, hid]
      constructor
      · rintro (rfl | ⟨hy, hne⟩)
        · exact .inl ⟨rfl, fun z hz hzid => honly z hz hzid ▸ hnow⟩
        · exact .inr ⟨hy, fun hyid => absurd hyid hne⟩
      · rintro (⟨rfl, -⟩ | ⟨hy, hle⟩)
        · exact .inl rfl
        · refine .inr ⟨hy, fun hyid => ?_⟩
          have := hle hyid
          rw [honly y hy hyid] at this
          omega
    · have hadd : s.add e = s := by
        refine add_of_none ?_
        rw [deleteOlder, hget]
        exact (if_pos hid).trans (if_neg hnow)
      rw [hadd]
      refine ⟨hs, fun y => ?_⟩
      constructor
      · exact fun hy => .inr ⟨hy, fun hyid => honly y hy hyid ▸ Int.not_lt.mp hnow⟩
      · rintro (⟨-, hall⟩ | ⟨hy, -⟩)
        · exact absurd (hall x hx hid) hnow
        · exact hy
  · have hne : ∀ x ∈ s.entries, x.itemid ≠ e.itemid := fun x hx hid => hmem ⟨x, hx, hid⟩
    rw [add_of_not_mem hne]
    refine ⟨hs.insert hne, fun y => ?_⟩
    rw [Nearest.mem_insert]
    constructor
    · rintro (rfl | hy)
      · exact .inl ⟨rfl, fun x hx hid => absurd hid (hne x hx)⟩
      · exact .inr ⟨hy, fun hid => absurd hid (hne y hy)⟩
    · rintro (⟨rfl, -⟩ | ⟨hy, -⟩)
      · exact .inl rfl
      · exact .inr hy

/-- The first of those with the greatest time for its item. -/
def FirstLatest (adds : List Nextcheck) (e : Nextcheck) : Prop :=
  ∃ before after, adds = before ++ e :: after ∧ (∀ x ∈ before, x.itemid = e.itemid → x.now < e.now) ∧
    ∀ x ∈ after, x.itemid = e.itemid → x.now ≤ e.now

/-- One more that is added. -/
theorem firstLatest_append_singleton {adds : List Nextcheck} {x e : Nextcheck} :
    FirstLatest (adds ++ [x]) e ↔
      (e = x ∧ ∀ y ∈ adds, y.itemid = x.itemid → y.now < x.now) ∨
        (FirstLatest adds e ∧ (e.itemid = x.itemid → x.now ≤ e.now)) := by
  constructor
  · rintro ⟨before, after, hadds, hbefore, hafter⟩
    rcases List.eq_nil_or_concat after with rfl | ⟨after, y, rfl⟩
    · obtain ⟨rfl, hx⟩ := List.append_inj' hadds rfl
      obtain rfl := (List.cons.inj hx).1
      exact .inl ⟨rfl, hbefore⟩
    · rw [List.concat_eq_append] at hadds hafter
      rw [← List.cons_append, ← List.append_assoc] at hadds
      obtain ⟨rfl, hx⟩ := List.append_inj' hadds rfl
      obtain rfl := (List.cons.inj hx).1
      refine .inr ⟨⟨before, after, rfl, hbefore, fun z hz => hafter z (List.mem_append_left _ hz)⟩, fun hid => ?_⟩
      exact hafter x (List.mem_append_right _ (List.mem_singleton_self x)) hid.symm
  · rintro (⟨rfl, hall⟩ | ⟨⟨before, after, rfl, hbefore, hafter⟩, hle⟩)
    · exact ⟨adds, [], rfl, hall, fun _ h => absurd h List.not_mem_nil⟩
    · refine ⟨before, after ++ [x], by simp, hbefore, fun y hy hid => ?_⟩
      rcases List.mem_append.mp hy with hy | hy
      · exact hafter y hy hid
      · rw [List.mem_singleton.mp hy] at hid ⊢
        exact hle hid.symm

theorem FirstLatest.mem {adds : List Nextcheck} {e : Nextcheck} (h : FirstLatest adds e) : e ∈ adds := by
  obtain ⟨before, after, rfl, -, -⟩ := h
  exact List.mem_append_right _ (List.mem_cons_self ..)

theorem FirstLatest.le {adds : List Nextcheck} {e : Nextcheck} (h : FirstLatest adds e) {y : Nextcheck} (hy : y ∈ adds)
    (hid : y.itemid = e.itemid) : y.now ≤ e.now := by
  obtain ⟨before, after, rfl, hbefore, hafter⟩ := h
  rcases List.mem_append.mp hy with hy | hy
  · exact (hbefore y hy hid).le
  · rcases List.mem_cons.mp hy with rfl | hy
    · exact le_rfl
    · exact hafter y hy hid

/-- **What the array holds**: it is sorted without repetition, it has an entry of every item that was added, and
this is the first of those with the greatest time. -/
structure Collected (adds entries : List Nextcheck) : Prop where
  sorted : Nearest.Sorted Nextcheck.itemid entries
  added_iff (itemid : UInt64) : (∃ e ∈ entries, e.itemid = itemid) ↔ ∃ e ∈ adds, e.itemid = itemid
  mem_iff (e : Nextcheck) : e ∈ entries ↔ FirstLatest adds e

/-- A new entry is later than the one of its item where it is later than all of them. -/
theorem Collected.forall_lt_iff {adds entries : List Nextcheck} (h : Collected adds entries) (e : Nextcheck) :
    (∀ x ∈ entries, x.itemid = e.itemid → x.now < e.now) ↔ ∀ y ∈ adds, y.itemid = e.itemid → y.now < e.now := by
  constructor
  · intro hall y hy hid
    obtain ⟨x, hx, hxid⟩ := (h.added_iff e.itemid).mpr ⟨y, hy, hid⟩
    exact (((h.mem_iff x).mp hx).le hy (hid.trans hxid.symm)).trans_lt (hall x hx hxid)
  · exact fun hall x hx => hall x ((h.mem_iff x).mp hx).mem

theorem Collected.add {adds : List Nextcheck} {s : Nextchecks} (h : Collected adds s.entries) (e : Nextcheck) :
    Collected (adds ++ [e]) (s.add e).entries := by
  obtain ⟨hsorted, hmem⟩ := Nextchecks.add_spec h.sorted e
  refine ⟨hsorted, fun itemid => ?_, fun x => ?_⟩
  · constructor
    · rintro ⟨x, hx, rfl⟩
      rcases (hmem x).mp hx with ⟨rfl, -⟩ | ⟨hx, -⟩
      · exact ⟨x, by simp, rfl⟩
      · exact ⟨x, List.mem_append_left _ ((h.mem_iff x).mp hx).mem, rfl⟩
    · rintro ⟨x, hx, rfl⟩
      by_cases hlater : x.itemid = e.itemid ∧ ∀ y ∈ s.entries, y.itemid = e.itemid → y.now < e.now
      · exact ⟨e, (hmem e).mpr (.inl ⟨rfl, hlater.2⟩), hlater.1.symm⟩
      · -- the item has an entry, and keeps it
        have hkept : ∃ y ∈ s.entries, y.itemid = x.itemid ∧ (y.itemid = e.itemid → e.now ≤ y.now) := by
          by_cases hid : x.itemid = e.itemid
          · obtain ⟨y, hy, hyid, hnow⟩ : ∃ y ∈ s.entries, y.itemid = e.itemid ∧ ¬y.now < e.now := by
              by_contra hnone
              push Not at hnone
              exact hlater ⟨hid, hnone⟩
            exact ⟨y, hy, hyid.trans hid.symm, fun _ => Int.not_lt.mp hnow⟩
          · have hadds : x ∈ adds := (List.mem_append.mp hx).resolve_right fun hxe => hid (List.mem_singleton.mp hxe ▸ rfl)
            obtain ⟨y, hy, hyid⟩ := (h.added_iff x.itemid).mpr ⟨x, hadds, rfl⟩
            exact ⟨y, hy, hyid, fun hye => absurd (hyid.symm.trans hye) hid⟩
        obtain ⟨y, hy, hid, hle⟩ := hkept
        exact ⟨y, (hmem y).mpr (.inr ⟨hy, hle⟩), hid⟩
  · rw [hmem, firstLatest_append_singleton, h.mem_iff, h.forall_lt_iff]

/-- **After any calls** the array holds what was added. -/
theorem Nextchecks.run_spec (cal : Calendar) (overflow refreshUnsupported : ℤ) (s : Nextchecks)
    (calls : List NextcheckCall) :
    Collected (calls.map (·.entry cal overflow refreshUnsupported))
      ((dcInitNextchecks s).run cal overflow refreshUnsupported calls).entries := by
  induction calls using List.reverseRecOn with
  | nil =>
      refine ⟨.nil, fun itemid => by simp [Nextchecks.run, dcInitNextchecks], fun e => ?_⟩
      refine iff_of_false List.not_mem_nil ?_
      rintro ⟨before, after, h, -⟩
      exact absurd h.symm (by simp)
  | append_singleton calls c ih =>
      rw [List.map_append, Nextchecks.run, Run.run_append]
      exact ih.add _

/-! ## What is executed -/

/-- An update of `items`: for an item that is not supported, the time and the error, as a literal. -/
structure NextcheckUpdate where
  itemid : UInt64
  nextcheck : Int32
  notsupported : Option (Int32 × List UInt8)

/-- The update of an entry. -/
def Nextcheck.update (b : Backend) (e : Nextcheck) : NextcheckUpdate where
  itemid := e.itemid
  nextcheck := Int32.ofInt e.nextcheck
  notsupported := e.errorMsg.map fun errorMsg => (Int32.ofInt e.now, dbDynEscapeStringLen b errorMsg itemErrorLen)

/-- What is set beside the next check. -/
def NextcheckUpdate.statusText (u : NextcheckUpdate) : List UInt8 :=
  match u.notsupported with
  | none => []
  | some (now, error) =>
      bytes ",status=" ++ d32 itemStatusNotsupported ++ bytes ",lastclock=" ++ d32 now ++ bytes ",error='" ++ error ++
        bytes "'"

def NextcheckUpdate.text (u : NextcheckUpdate) : List UInt8 :=
  bytes "update items set nextcheck=" ++ d32 u.nextcheck ++ u.statusText ++ bytes " where itemid=" ++ ui64 u.itemid ++
    bytes ";\n"

/-- No statement is cut. -/
theorem Nextcheck.sql_eq (b : Backend) (e : Nextcheck) : e.sql b = (e.update b).text := by
  have hhead : (bytes "update items set nextcheck=").length = 27 := by decide
  have hstatus : (bytes ",status=").length = 8 := by decide
  have hlastclock : (bytes ",lastclock=").length = 11 := by decide
  have herror : (bytes ",error='").length = 8 := by decide
  have hquote : (bytes "'").length = 1 := by decide
  have hwhere : (bytes " where itemid=").length = 14 := by decide
  have hend : (bytes ";\n").length = 2 := by decide
  have hnextcheck := length_d32_le (Int32.ofInt e.nextcheck)
  have hnow := length_d32_le (Int32.ofInt e.now)
  have hnotsupported := length_d32_le itemStatusNotsupported
  have hid := length_ui64_le e.itemid
  have hset : zbxSnprintfAlloc [] 64 (bytes "update items set nextcheck=" ++ d32 (Int32.ofInt e.nextcheck)) =
      bytes "update items set nextcheck=" ++ d32 (Int32.ofInt e.nextcheck) :=
    zbxVsnprintf_of_lt (by simp only [List.length_append, hhead]; omega)
  have hitem : ∀ sql, zbxSnprintfAlloc sql 64 (bytes " where itemid=" ++ ui64 e.itemid ++ bytes ";\n") =
      sql ++ (bytes " where itemid=" ++ ui64 e.itemid ++ bytes ";\n") := fun sql =>
    congrArg (sql ++ ·) (zbxVsnprintf_of_lt (by simp only [List.length_append, hwhere, hend]; omega))
  rw [sql, hset, hitem, NextcheckUpdate.text, update, NextcheckUpdate.statusText]
  cases e.errorMsg with
  | none => simp only [Option.map_none, List.append_nil, List.append_assoc]
  | some errorMsg =>
      dsimp only [Option.map_some]
      rw [zbxSnprintfAlloc, zbxVsnprintf_of_lt (by
        simp only [List.length_append, hstatus, hlastclock, herror, hquote]
        omega)]
      simp only [List.append_assoc]

theorem Nextcheck.least_lt_length_sql (b : Backend) (e : Nextcheck) : (sqlFrame b).least < (e.sql b).length := by
  have hhead : (bytes "update items set nextcheck=").length = 27 := by decide
  rw [sql_eq, NextcheckUpdate.text]
  simp only [List.length_append, hhead]
  change 16 < _
  omega

/-- The flush executes the update of every entry, once and in order. -/
theorem dcFlushNextchecks_eq (b : Backend) (s : Nextchecks) :
    ∃ groups : List (List NextcheckUpdate),
      dcFlushNextchecks b s = groups.map ((sqlFrame b).text NextcheckUpdate.text) ∧
        groups.flatten = s.entries.map (·.update b) := by
  rw [dcFlushNextchecks]
  split
  · next hnil => exact ⟨[], rfl, by rw [hnil]; rfl⟩
  · have htext : ∀ es : List Nextcheck,
        (sqlFrame b).text (Nextcheck.sql b) es =
          (sqlFrame b).text NextcheckUpdate.text (es.map (·.update b)) := by
      intro es
      rw [SqlBatch.Frame.text, SqlBatch.Frame.text, List.flatMap_map, funext (Nextcheck.sql_eq b)]
    refine ⟨(SqlBatch.chunks (sqlFrame b) (Nextcheck.sql b) zbxMaxSqlSize [] s.entries).map
      (List.map (·.update b)), ?_, ?_⟩
    · rw [List.map_map]
      exact List.map_congr_left fun es _ => htext es
    · rw [← List.map_flatten, SqlBatch.flatten_chunks (Nextcheck.least_lt_length_sql b), List.nil_append]

/-- A text says something of a table. -/
def Mentions (table : String) (texts : List (List UInt8)) : Prop := ∃ t ∈ texts, bytes table <:+: t

end Zabbix
