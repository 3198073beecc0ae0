import Zabbix.Poller.Aggregate

/-!
# Zabbix.Poller.AggregateValues

What `evaluate_aggregate` reads and what it makes of it.

A number in a row of a floating item is read as it stands; one of an unsigned item when it
is whole and below 2^63 (`zbxAtoui64_text_iff`).  The statements reach the database as they
are meant when they fit their buffers (`aggregateRows_of_fits`).  Then the values that go
into the result are those of the items found, and the result is right if and only if these
are the items that should be (`aggregates_iff`).

For a name and a key without carriage returns these are the items that it should find, and
the condition is one on what they have (`AggregateDb.countable_iff`).
-/

namespace Zabbix

open Ascii Printf

/-! ## reading numbers -/

/-- A number begins with no blank and no plus sign. -/
theorem dropWhile_isSpace_text (d : Decimal) : d.text.dropWhile (fun c => isSpace c) = d.text := by
  obtain ⟨c, s, hc, hdigit⟩ := d.exists_cons_digits
  have hbyte : ∀ c : UInt8, JsonText.isDigit c = true ∨ c = dot → isSpace c = false :=
    forall_byte (by decide +kernel)
  rw [Decimal.text, hc]
  cases d.neg with
  | true => exact List.dropWhile_cons_of_neg (by decide)
  | false => exact List.dropWhile_cons_of_neg (by simp [hbyte c hdigit])

/-- The sign of a number and what stands behind it. -/
theorem sign_text (d : Decimal) :
    (d.text.head? = some minus ↔ d.neg = true) ∧
      (if d.text.head? = some minus ∨ d.text.head? = some plus then d.text.tail else d.text) =
        d.int ++ Decimal.fracText d.frac := by
  obtain ⟨c, s, hc, hdigit⟩ := d.exists_cons_digits
  have hbyte : ∀ c : UInt8, JsonText.isDigit c = true ∨ c = dot → c ≠ minus ∧ c ≠ plus :=
    forall_byte (by decide +kernel)
  obtain ⟨hminus, hplus⟩ := hbyte c hdigit
  rw [Decimal.text, hc]
  cases d.neg with
  | true => simp [sign]
  | false => simp [sign, hminus, hplus]

/-- `strtod` reads the whole of a number. -/
theorem zbxAtod_text (d : Decimal) : zbxAtod d.text = d.value := by
  obtain ⟨hneg, hdigits⟩ := sign_text d
  obtain ⟨hint, hfrac⟩ := d.span_int
  have hds : ∀ ds, d.frac = some ds →
      ds.takeWhile (JsonText.isDigit ·) = ds ∧ ds.dropWhile (JsonText.isDigit ·) = [] := by
    intro ds hd
    have hall : ∀ c ∈ ds, JsonText.isDigit c = true := fun c hc => d.isDigit_of_mem c (by simp [hd, hc])
    exact ⟨List.takeWhile_eq_self_iff.mpr hall, List.dropWhile_eq_nil_iff.mpr hall⟩
  simp only [zbxAtod, dropWhile_isSpace_text, hdigits, hint, hfrac, Decimal.value, Decimal.magnitude]
  cases hd : d.frac with
  | none => simp [Decimal.fracText, strtodExponent, hneg]
  | some ds =>
      obtain ⟨htake, hdrop⟩ := hds ds hd
      simp [Decimal.fracText, htake, hdrop, strtodExponent, hneg]

/-- `atoll` reads what stands in front of the point. -/
theorem atoll_text (d : Decimal) :
    atoll d.text =
      if d.neg then -((min (ofDec d.int) (2 ^ 63) : ℕ) : ℤ) else (min (ofDec d.int) (2 ^ 63 - 1) : ℕ) := by
  obtain ⟨c, s, hc, hdigit⟩ := d.exists_cons_digits
  have hbyte : ∀ c : UInt8, JsonText.isDigit c = true ∨ c = dot → c ≠ minus ∧ c ≠ plus :=
    forall_byte (by decide +kernel)
  obtain ⟨hminus, hplus⟩ := hbyte c hdigit
  have hint := d.span_int.1
  rw [atoll, dropWhile_isSpace_text, Decimal.text]
  cases d.neg with
  | true => simp [sign, hint]
  | false =>
      rw [hc] at hint ⊢
      simp [sign, hminus, hplus, hint]

/-- **Integers are read up to 2^63**: `zbx_atoui64` reads a number when it is whole, and no
greater. -/
theorem zbxAtoui64_text_iff (d : Decimal) :
    (zbxAtoui64 d.text : ℚ) = d.value ↔ ∃ n : ℕ, n < 2 ^ 63 ∧ d.value = n := by
  obtain ⟨hle, hlt⟩ := d.magnitude_bounds
  have htext := atoll_text d
  rw [zbxAtoui64, Decimal.value]
  cases hneg : d.neg with
  | true =>
      simp only [hneg, if_true] at htext ⊢
      have hnonneg : (0 : ℚ) ≤ ofDec d.int := by positivity
      constructor
      · intro heq
        refine ⟨0, by decide, ?_⟩
        have hge : (0 : ℚ) ≤ ((atoll d.text % 2 ^ 64).toNat : ℚ) := by positivity
        rw [Nat.cast_zero]
        linarith
      · rintro ⟨n, -, hn⟩
        have hn0 : (0 : ℚ) ≤ (n : ℚ) := by positivity
        have hzero : ofDec d.int = 0 := by
          have : (ofDec d.int : ℚ) = 0 := by linarith
          exact_mod_cast this
        rw [htext, hzero]
        have hmag : d.magnitude = 0 := by linarith
        simp [hmag]
  | false =>
      simp only [hneg, Bool.false_eq_true, if_false] at htext ⊢
      have hread : (atoll d.text % 2 ^ 64).toNat = min (ofDec d.int) (2 ^ 63 - 1) := by
        rw [htext]
        omega
      rw [hread]
      constructor
      · intro heq
        exact ⟨min (ofDec d.int) (2 ^ 63 - 1), by omega, heq.symm⟩
      · rintro ⟨n, hn, heq⟩
        rw [heq] at hle hlt ⊢
        have hfloor : ofDec d.int = n := by
          have h1 : ofDec d.int ≤ n := by exact_mod_cast hle
          have h2 : n < ofDec d.int + 1 := by exact_mod_cast hlt
          omega
        rw [hfloor, Nat.min_eq_left (by omega)]

/-! ## the fold -/

theorem itemFunc?_name (f : ItemFunc) : itemFunc? f.name = some f := by
  rcases f with _ | f
  · rfl
  · cases f <;> decide

/-- The accumulator of the four functions. -/
def GroupFunc.step (g : GroupFunc) (acc : ℚ × ℕ) (value : ℚ) : ℚ × ℕ :=
  match g with
  | sum | avg => (acc.1 + value, acc.2 + 1)
  | min => (if acc.2 = 0 then value else if value < acc.1 then value else acc.1, acc.2 + 1)
  | max => (if acc.2 = 0 then value else if acc.1 < value then value else acc.1, acc.2 + 1)

theorem evaluateOne_name (g : GroupFunc) (acc : ℚ × ℕ) (row : AggregateRow) :
    evaluateOne g.name acc row = some (g.step acc row.number) := by
  cases g <;> rfl

/-- `evaluate_one` fails for no row. -/
theorem foldlM_evaluateOne (g : GroupFunc) (rows : List AggregateRow) (acc : ℚ × ℕ) :
    rows.foldlM (evaluateOne g.name) acc = some ((rows.map AggregateRow.number).foldl g.step acc) := by
  induction rows generalizing acc with
  | nil => rfl
  | cons row rows ih =>
      rw [List.foldlM_cons, evaluateOne_name, List.map_cons, List.foldl_cons]
      exact ih _

theorem foldl_step_snd (g : GroupFunc) (vs : List ℚ) (acc : ℚ × ℕ) :
    (vs.foldl g.step acc).2 = acc.2 + vs.length := by
  induction vs generalizing acc with
  | nil => rfl
  | cons v vs ih =>
      rw [List.foldl_cons, ih]
      cases g <;> simp [GroupFunc.step] <;> omega

theorem foldl_step_sum {g : GroupFunc} (hg : g = .sum ∨ g = .avg) (vs : List ℚ) (acc : ℚ × ℕ) :
    (vs.foldl g.step acc).1 = acc.1 + vs.sum := by
  induction vs generalizing acc with
  | nil => simp
  | cons v vs ih =>
      rw [List.foldl_cons, ih, List.sum_cons]
      rcases hg with rfl | rfl <;> simp only [GroupFunc.step] <;> ring

/-- Behind the first value the count is not zero. -/
theorem foldl_step_min (vs : List ℚ) (acc : ℚ × ℕ) (hnum : acc.2 ≠ 0) :
    (vs.foldl GroupFunc.min.step acc).1 = vs.foldl (fun least v => if v < least then v else least) acc.1 := by
  induction vs generalizing acc with
  | nil => rfl
  | cons v vs ih =>
      rw [List.foldl_cons, List.foldl_cons, ih _ (by simp [GroupFunc.step])]
      simp [GroupFunc.step, hnum]

theorem foldl_step_max (vs : List ℚ) (acc : ℚ × ℕ) (hnum : acc.2 ≠ 0) :
    (vs.foldl GroupFunc.max.step acc).1 = vs.foldl (fun greatest v => if greatest < v then v else greatest) acc.1 := by
  induction vs generalizing acc with
  | nil => rfl
  | cons v vs ih =>
      rw [List.foldl_cons, List.foldl_cons, ih _ (by simp [GroupFunc.step])]
      simp [GroupFunc.step, hnum]

/-- **The accumulator ends with the group function of the values.** -/
theorem gives_foldl_step (g : GroupFunc) {vs : List ℚ} (hne : vs ≠ []) :
    let acc := vs.foldl g.step (0, 0)
    g.Gives vs (if g = .avg then acc.1 / acc.2 else acc.1) := by
  obtain ⟨v, vs, rfl⟩ := List.exists_cons_of_ne_nil hne
  cases g with
  | sum => simp [GroupFunc.Gives, GroupFunc.step, foldl_step_sum (.inl rfl)]
  | avg => simp [GroupFunc.Gives, GroupFunc.step, foldl_step_sum (.inr rfl), foldl_step_snd, add_comm]
  | min =>
      have hmin := Tally.isLeast_foldl v vs
      simp only [GroupFunc.Gives, reduceCtorEq, if_false, List.foldl_cons]
      rw [foldl_step_min vs _ (by simp [GroupFunc.step])]
      simpa [GroupFunc.step] using hmin
  | max =>
      have hmax := Tally.isGreatest_foldl v vs
      simp only [GroupFunc.Gives, reduceCtorEq, if_false, List.foldl_cons]
      rw [foldl_step_max vs _ (by simp [GroupFunc.step])]
      simpa [GroupFunc.step] using hmax

/-- The order of the values does not matter. -/
theorem GroupFunc.Gives.perm {g : GroupFunc} {vs ws : List ℚ} {r : ℚ} (h : vs.Perm ws) (hr : g.Gives vs r) :
    g.Gives ws r := by
  have hset : {v | v ∈ vs} = {v | v ∈ ws} := Set.ext fun v => h.mem_iff
  cases g with
  | sum => exact Eq.trans hr h.sum_eq
  | avg => exact Eq.trans hr (by rw [h.sum_eq, h.length_eq])
  | min =>
      rw [GroupFunc.Gives, hset] at hr
      exact hr
  | max =>
      rw [GroupFunc.Gives, hset] at hr
      exact hr

section Result

variable (b : Backend) (nodeid : Int32) (server : AggregateServer) (now : Int32)
  (g : GroupFunc) (hostgroup itemkey : List UInt8) (f : ItemFunc) (param : List UInt8)

/-- **What the rows amount to**: without any it is a failure, otherwise the group function of
their numbers. -/
theorem evaluateAggregate_eq :
    let vs := (aggregateRows b nodeid server now hostgroup itemkey f param).map AggregateRow.number
    (vs = [] ∧ evaluateAggregate b nodeid server now g.name hostgroup itemkey f.name param =
        .error (bytes "No values")) ∨
      (vs ≠ [] ∧ ∃ r, evaluateAggregate b nodeid server now g.name hostgroup itemkey f.name param = .ok r ∧
        g.Gives vs r) := by
  intro vs
  have hnum : (vs.foldl g.step (0, 0)).2 = vs.length := by
    rw [foldl_step_snd, Nat.zero_add]
  have havg : g.name = bytes "grpavg" ↔ g = .avg := by
    cases g <;> decide
  have heq : evaluateAggregate b nodeid server now g.name hostgroup itemkey f.name param =
      if (vs.foldl g.step (0, 0)).2 = 0 then .error (bytes "No values")
      else .ok (if g = .avg then (vs.foldl g.step (0, 0)).1 / (vs.foldl g.step (0, 0)).2
        else (vs.foldl g.step (0, 0)).1) := by
    rw [evaluateAggregate, itemFunc?_name]
    dsimp only
    rw [foldlM_evaluateOne]
    simp only [havg]
    split
    · rfl
    · split <;> rfl
  by_cases hvs : vs = []
  · refine .inl ⟨hvs, ?_⟩
    rw [heq, hnum, hvs]
    rfl
  · refine .inr ⟨hvs, _, ?_, gives_foldl_step g hvs⟩
    rw [heq, hnum, if_neg (by simpa using hvs)]

end Result

/-! ## the values of an item -/

theorem numberOf_eq_some {text : List UInt8} {q : ℚ} : numberOf text = some q ↔ Decimal.Denotes text q := by
  rw [numberOf]
  split
  · next h =>
      rw [Option.some.injEq]
      constructor
      · rintro rfl
        exact h.choose_spec
      · exact fun hq => Decimal.Denotes.unique h.choose_spec hq
  · next h => exact ⟨fun hn => by simp at hn, fun hq => absurd ⟨q, hq⟩ h⟩

/-- A value of a floating item is a number; one of an unsigned item is whole, and below 2^63. -/
def ReadInFull (s : ItemValueType × List UInt8) : Prop :=
  (s.1 = .float ∧ ∃ q, Decimal.Denotes s.2 q) ∨ (s.1 = .uint64 ∧ ∃ n : ℕ, n < 2 ^ 63 ∧ Decimal.Denotes s.2 n)

/-- What is read is the number that stands there. -/
theorem readInFull_iff {itemid : ℕ} {s : ItemValueType × List UInt8} :
    ReadInFull s ↔ (s.1 = .float ∨ s.1 = .uint64) ∧ numberOf s.2 = some (AggregateRow.number ⟨itemid, s.1, s.2⟩) := by
  obtain ⟨type, text⟩ := s
  simp only [ReadInFull, numberOf_eq_some, AggregateRow.number]
  constructor
  · rintro (⟨rfl, q, d, rfl, rfl⟩ | ⟨rfl, n, hn, d, rfl, hd⟩)
    · simp only [if_true, true_or, true_and, zbxAtod_text]
      exact ⟨d, rfl, rfl⟩
    · simp only [reduceCtorEq, if_false, if_true, or_true, true_and]
      exact ⟨d, rfl, ((zbxAtoui64_text_iff d).mpr ⟨n, hn, hd⟩).symm⟩
  · rintro ⟨rfl | rfl, hnumber⟩
    · exact .inl ⟨rfl, _, hnumber⟩
    · simp only [reduceCtorEq, if_false, if_true] at hnumber
      obtain ⟨d, rfl, hd⟩ := hnumber
      obtain ⟨n, hn, hvalue⟩ := (zbxAtoui64_text_iff d).mp hd.symm
      exact .inr ⟨rfl, n, hn, d, rfl, hvalue⟩

namespace AggregateDb

variable (db : AggregateDb) (sqlFunc : HistoryFunc → List ℚ → Decimal) (f : ItemFunc) (clock : Int32)
  (i : AggregateItem)

/-- What the rows of an item hold. -/
def readValues (itemids : List ℕ) : List ℚ :=
  if i.itemid ∈ itemids then
    (db.stored sqlFunc f clock i).map fun s => AggregateRow.number ⟨i.itemid, i.valueType, s.2⟩
  else []

theorem stored_cases :
    db.stored sqlFunc f clock i = [] ∨ (∃ s, db.stored sqlFunc f clock i = [s]) ∨
      ∃ t t', db.stored sqlFunc f clock i = [(.float, t), (.uint64, t')] := by
  cases f with
  | last => cases h : i.lastvalue <;> simp [stored, h]
  | history f =>
      cases h : historyValue sqlFunc db.history f clock i <;>
        cases h' : historyValue sqlFunc db.historyUint f clock i <;> simp [stored, h, h']

/-- **One item**: its rows hold its value and nothing else. -/
theorem perm_stored_iff :
    ((db.stored sqlFunc f clock i).map fun s => AggregateRow.number ⟨i.itemid, i.valueType, s.2⟩).Perm
        (db.itemValue sqlFunc f clock i).toList ↔
      ∀ s ∈ db.stored sqlFunc f clock i, s.1 = i.valueType ∧ ReadInFull s := by
  rcases db.stored_cases sqlFunc f clock i with h | ⟨s, h⟩ | ⟨t, t', h⟩
  · simp [itemValue, h]
  · have hvalue : db.itemValue sqlFunc f clock i =
        if s.1 = i.valueType ∧ (s.1 = .float ∨ s.1 = .uint64) then numberOf s.2 else none := by
      by_cases htype : s.1 = i.valueType <;> simp [itemValue, h, htype]
    rw [hvalue, h]
    simp only [List.map_cons, List.map_nil, List.forall_mem_cons, List.not_mem_nil, false_implies, implies_true,
      and_true, List.singleton_perm]
    by_cases htype : s.1 = i.valueType
    · rw [@readInFull_iff i.itemid, htype]
      by_cases hnumeric : i.valueType = .float ∨ i.valueType = .uint64
      · simp only [hnumeric, and_self, if_true, true_and]
        cases numberOf s.2 <;> simp [eq_comm]
      · simp [hnumeric]
    · simp [htype]
  · have hlen : (db.itemValue sqlFunc f clock i).toList.length ≤ 1 := by
      cases db.itemValue sqlFunc f clock i <;> simp
    rw [h]
    refine iff_of_false ?_ ?_
    · intro hperm
      have := hperm.length_eq
      simp only [List.map_cons, List.map_nil, List.length_cons, List.length_nil] at this
      omega
    · intro hall
      have hfloat := (hall (.float, t) (by simp)).1
      have huint := (hall (.uint64, t') (by simp)).1
      rw [← hfloat] at huint
      cases huint

end AggregateDb

namespace AggregateDb

variable (db : AggregateDb) (sqlFunc : HistoryFunc → List ℚ → Decimal) (f : ItemFunc) (clock : Int32)

/-- The answers to the two statements hold the values of the items in the list. -/
theorem perm_answers (itemids : List ℕ) :
    (((db.answers sqlFunc f clock itemids).1 ++ (db.answers sqlFunc f clock itemids).2).map
        fun row => (row.itemid, row.number)).Perm
      (Tally.keyed AggregateItem.itemid (fun i => db.readValues sqlFunc f clock i itemids) db.items) := by
  have hrows : ∀ value : AggregateItem → Option (List UInt8),
      (db.rowsOf value itemids).map (fun row => (row.itemid, row.number)) =
        db.items.flatMap fun i => if i.itemid ∈ itemids then
          (value i).toList.map fun text => (i.itemid, AggregateRow.number ⟨i.itemid, i.valueType, text⟩) else [] := by
    intro value
    rw [rowsOf, List.map_flatMap]
    congr 1
    funext i
    split <;> simp
  rw [List.map_append, Tally.keyed]
  cases f with
  | last =>
      rw [answers, hrows, List.map_nil, List.append_nil]
      refine List.Perm.of_eq (congrArg (db.items.flatMap ·) (funext fun i => ?_))
      rw [readValues]
      split <;> simp [stored]
  | history f =>
      rw [answers, hrows, hrows]
      refine (List.flatMap_append_perm db.items _ _).trans
        (List.Perm.of_eq (congrArg (db.items.flatMap ·) (funext fun i => ?_)))
      rw [readValues]
      split <;> simp [stored, Function.comp_def]

variable (nodeid : Int32) {hostgroup itemkey : List UInt8}

theorem mem_affected {i : AggregateItem} (hi : i ∈ db.items) :
    i.itemid ∈ db.affected nodeid hostgroup itemkey ↔ db.Member nodeid hostgroup itemkey i := by
  have hkey : ∀ j ∈ db.items, j.itemid = i.itemid → j = i := fun j hj heq =>
    List.inj_on_of_nodup_map db.itemids_nodup hj hi heq
  simp only [affected, List.mem_flatMap, List.mem_map, List.mem_filter, Member]
  constructor
  · rintro ⟨j, hj, hg, hhg, h, hh, g, ⟨hgroup, hjoined⟩, heq⟩
    obtain rfl := hkey j hj heq
    exact ⟨hg, hhg, h, hh, g, hgroup, of_decide_eq_true hjoined⟩
  · rintro ⟨hg, hhg, h, hh, g, hgroup, hjoined⟩
    exact ⟨i, hi, hg, hhg, h, hh, g, ⟨hgroup, decide_eq_true hjoined⟩, rfl⟩

end AggregateDb

/-! ## the statements as they are sent -/

theorem take_take_append {α : Type} (s t : List α) (n : ℕ) : (s.take n ++ t).take n = (s ++ t).take n := by
  rw [List.take_append, List.take_append, List.take_take, Nat.min_self, List.length_take]
  congr 2
  omega

/-- The list of the items is cut to its buffer. -/
theorem itemList_eq (itemids : List ℕ) : itemList itemids = (idList itemids).take (maxStringLen - 1) := by
  have hloop : ∀ items : List UInt8,
      itemids.foldl (fun items itemid => strscpy (zbxVsnprintf maxStringLen (items ++ comma :: dec itemid)))
          (items.take (maxStringLen - 1)) =
        (items ++ itemids.flatMap fun itemid => comma :: dec itemid).take (maxStringLen - 1) := by
    induction itemids with
    | nil => simp
    | cons itemid itemids ih =>
        intro items
        rw [List.foldl_cons, strscpy, zbxVsnprintf, List.take_take, Nat.min_self, take_take_append, ih,
          List.flatMap_cons, ← List.append_assoc]
  exact hloop (bytes "0")

/-- The order of the identifiers does not matter for the length. -/
theorem length_idList_perm {itemids itemids' : List ℕ} (h : itemids.Perm itemids') :
    (idList itemids).length = (idList itemids').length := by
  rw [idList, idList, List.length_append, List.length_append, (h.flatMap_right _).length_eq]

theorem length_lastSql (items : List UInt8) : (lastSql items).length = items.length + (lastSql []).length := by
  simp only [lastSql, List.length_append, List.length_nil]
  omega

theorem length_historySql (f : HistoryFunc) (items : List UInt8) (clock : Int32) :
    items.length < (historySql (bytes "history") f items clock).length ∧
      (historySql (bytes "history_uint") f items clock).length =
        (historySql (bytes "history") f items clock).length + 5 := by
  have htable : (bytes "history_uint").length = (bytes "history").length + 5 := by decide
  have hpos : 0 < (bytes "history").length := by decide
  simp only [historySql, List.length_append]
  omega

/-- The list is part of the first statement. -/
theorem length_items_lt (f : ItemFunc) (items : List UInt8) (clock : Int32) :
    items.length < (aggregateSql f items clock).1.length := by
  cases f with
  | last =>
      have hhead : 0 < (lastSql []).length := by decide
      rw [aggregateSql, length_lastSql]
      omega
  | history f => exact (length_historySql f items clock).1

/-- A statement that is cut is another one. -/
theorem zbxVsnprintf_ne {sql : List UInt8} (h : maxStringLen ≤ sql.length) (text : List UInt8) :
    zbxVsnprintf maxStringLen text ≠ sql := by
  intro heq
  have hle : (zbxVsnprintf maxStringLen text).length ≤ maxStringLen - 1 := List.length_take_le _ _
  rw [heq] at hle
  have : 0 < maxStringLen := by decide
  omega

/-- The first statement is not the second one, cut or not. -/
theorem sent_first_ne (f : ItemFunc) (items itemids : List UInt8) (clock : Int32)
    (h : maxStringLen ≤ (aggregateSql f itemids clock).1.length) :
    zbxVsnprintf maxStringLen (aggregateSql f items clock).1 ≠ (aggregateSql f itemids clock).2 := by
  cases f with
  | last =>
      intro heq
      have hlen : (zbxVsnprintf maxStringLen (lastSql items)).length = noSql.length := congrArg List.length heq
      have hhead : noSql.length < (lastSql []).length ∧ noSql.length < maxStringLen - 1 := by decide
      rw [zbxVsnprintf, List.length_take, length_lastSql] at hlen
      omega
  | history f =>
      refine zbxVsnprintf_ne ?_ _
      have hlen := (length_historySql f itemids clock).2
      simp only [aggregateSql] at h ⊢
      omega

/-- What stands around the name of the table. -/
theorem historySql_eq (f : HistoryFunc) (items : List UInt8) (clock : Int32) :
    ∃ front behind, ∀ table, historySql table f items clock = front ++ (table ++ space :: behind) := by
  refine ⟨bytes "select h.itemid,i.value_type," ++ f.name ++ bytes "(h.value) from items i,", ?_, fun table => ?_⟩
  · exact bytes "h where h.itemid=i.itemid and h.itemid in (" ++ items ++ bytes ") and h.clock>" ++ d32 clock ++
      bytes " group by h.itemid,i.value_type"
  · rw [historySql, show bytes " h where h.itemid=i.itemid and h.itemid in (" =
      space :: bytes "h where h.itemid=i.itemid and h.itemid in (" from by decide]
    simp only [List.append_assoc, List.cons_append]

/-- Nor is the second one the first. -/
theorem sent_second_ne (f : ItemFunc) (items : List UInt8) (clock : Int32) :
    zbxVsnprintf maxStringLen (aggregateSql f items clock).2 ≠ (aggregateSql f items clock).1 := by
  cases f with
  | last =>
      intro heq
      have hlen : (zbxVsnprintf maxStringLen noSql).length = (lastSql items).length := congrArg List.length heq
      have hhead : noSql.length < (lastSql []).length := by decide
      rw [zbxVsnprintf, List.length_take, length_lastSql] at hlen
      omega
  | history f =>
      intro heq
      obtain ⟨front, behind, hsql⟩ := historySql_eq f items clock
      have hfront : historySql (bytes "history") f items clock <+: historySql (bytes "history_uint") f items clock := by
        have htake : historySql (bytes "history") f items clock = _ := heq.symm
        rw [htake]
        exact List.take_prefix _ _
      rw [hsql, hsql, List.prefix_append_right_inj,
        show bytes "history_uint" = bytes "history" ++ bytes "_uint" from by decide, List.append_assoc, List.prefix_append_right_inj, show bytes "_uint" = 95 :: bytes "uint" from by decide,
        List.cons_append, List.cons_prefix_cons] at hfront
      exact absurd hfront.1 (by decide)

theorem aggregateSql_ne (f : ItemFunc) (items : List UInt8) (clock : Int32) :
    (aggregateSql f items clock).2 ≠ (aggregateSql f items clock).1 := by
  intro heq
  have hlen := congrArg List.length heq
  cases f with
  | last =>
      have hhead : noSql.length < (lastSql []).length := by decide
      simp only [aggregateSql] at hlen
      rw [length_lastSql] at hlen
      omega
  | history f =>
      have := (length_historySql f items clock).2
      simp only [aggregateSql] at hlen
      omega

section Sent

variable (b : Backend) (nodeid : Int32) (server : AggregateServer) (now : Int32) (db : AggregateDb)
  (sqlFunc : HistoryFunc → List ℚ → Decimal) (rule : UnescapeRule) {hostgroup itemkey : List UInt8} {f : ItemFunc}
  {param : List UInt8}

/-- The two statements fit their buffers. -/
def SqlFits (f : ItemFunc) (itemids : List ℕ) (clock : Int32) : Prop :=
  (aggregateSql f (idList itemids) clock).1.length < maxStringLen ∧
    (aggregateSql f (idList itemids) clock).2.length < maxStringLen

/-- Statements that fit are sent as they are meant. -/
theorem aggregateRows_of_fits {itemids : List ℕ}
    (hids : affectedItemids b nodeid server hostgroup itemkey = itemids)
    (hfits : SqlFits f itemids (now - atoi param)) :
    aggregateRows b nodeid server now hostgroup itemkey f param =
      server.select (aggregateSql f (idList itemids) (now - atoi param)).1 ++
        server.select (aggregateSql f (idList itemids) (now - atoi param)).2 := by
  have hlist : itemList itemids = idList itemids := by
    have := length_items_lt f (idList itemids) (now - atoi param)
    have hfirst := hfits.1
    rw [itemList_eq, List.take_of_length_le (by omega)]
  rw [aggregateRows, hids, hlist, zbxVsnprintf_of_lt hfits.1, zbxVsnprintf_of_lt hfits.2]

/-- **The values that go into a result are those of the items found**, when the statements
fit. -/
theorem AggregateServer.Answers.perm_values (h : server.Answers b nodeid now db sqlFunc rule hostgroup itemkey f param)
    (hfits : SqlFits f (affectedItemids b nodeid server hostgroup itemkey) (now - atoi param)) :
    ((aggregateRows b nodeid server now hostgroup itemkey f param).map fun row => (row.itemid, row.number)).Perm
      (Tally.keyed AggregateItem.itemid
        (fun i => db.readValues sqlFunc f (now - atoi param) i (0 :: db.affectedBy b nodeid rule hostgroup itemkey))
        db.items) := by
  rw [aggregateRows_of_fits b nodeid server now rfl hfits]
  refine ((h.first.append h.second).map _).trans ?_
  refine (db.perm_answers sqlFunc f _ _).trans (List.Perm.of_eq ?_)
  congr 1
  funext i
  have hmem : i.itemid ∈ (0 :: affectedItemids b nodeid server hostgroup itemkey) ↔
      i.itemid ∈ (0 :: db.affectedBy b nodeid rule hostgroup itemkey) := (h.items.cons 0).mem_iff
  simp only [AggregateDb.readValues, hmem]

theorem sqlFits_perm {itemids itemids' : List ℕ} (h : itemids.Perm itemids') (clock : Int32) :
    SqlFits f itemids clock ↔ SqlFits f itemids' clock := by
  have hlen := length_idList_perm h
  cases f with
  | last => simp only [SqlFits, aggregateSql, length_lastSql (idList itemids), length_lastSql (idList itemids'), hlen]
  | history f => simp only [SqlFits, aggregateSql, historySql, List.length_append, hlen]

/-- The items found, as far as there is a value for them, are items that should be, with a
value in the place of their value type and one that is read as it stands; and nothing else
has a value. -/
structure AggregateDb.Countable (db : AggregateDb) (hostgroup itemkey : List UInt8) (f : ItemFunc) (clock : Int32) :
    Prop where
  fits : SqlFits f (db.affectedBy b nodeid rule hostgroup itemkey) clock
  found : ∀ i ∈ db.items, i.itemid ∈ 0 :: db.affectedBy b nodeid rule hostgroup itemkey →
    ∀ s ∈ db.stored sqlFunc f clock i, db.Member nodeid hostgroup itemkey i ∧ s.1 = i.valueType ∧ ReadInFull s
  missed : ∀ i ∈ db.items, db.Member nodeid hostgroup itemkey i →
    i.itemid ∉ 0 :: db.affectedBy b nodeid rule hostgroup itemkey → db.itemValue sqlFunc f clock i = none

/-- A name without a carriage return that fits its buffer is read back. -/
theorem literalValue_escape {s : List UInt8} (hcr : cr ∉ s) (hlen : 2 * s.length < maxStringLen) :
    literalValue b rule (dbEscapeString b s maxStringLen) = s := by
  have hbody := literalBody_flatMap b rule s [] (by simp)
  rw [literalValue, dbEscapeString_of_lt b hlen, kept_of_not_mem hcr, hbody]
  rfl

/-- **Which items can be counted**, for such names: what an item of the group has is in the
place of its value type and read as it stands. -/
theorem AggregateDb.countable_iff (hgroup : cr ∉ hostgroup ∧ 2 * hostgroup.length < maxStringLen)
    (hkey : cr ∉ itemkey ∧ 2 * itemkey.length < maxStringLen) (hids : ∀ i ∈ db.items, i.itemid ≠ 0) (clock : Int32) :
    db.Countable b nodeid sqlFunc rule hostgroup itemkey f clock ↔
      SqlFits f (db.affected nodeid hostgroup itemkey) clock ∧
        ∀ i ∈ db.items, db.Member nodeid hostgroup itemkey i →
          ∀ s ∈ db.stored sqlFunc f clock i, s.1 = i.valueType ∧ ReadInFull s := by
  have hby : db.affectedBy b nodeid rule hostgroup itemkey = db.affected nodeid hostgroup itemkey := by
    rw [AggregateDb.affectedBy, literalValue_escape b rule hgroup.1 hgroup.2, literalValue_escape b rule hkey.1 hkey.2]
  have hmem : ∀ i ∈ db.items, i.itemid ∈ 0 :: db.affectedBy b nodeid rule hostgroup itemkey ↔
      db.Member nodeid hostgroup itemkey i := by
    intro i hi
    rw [hby, List.mem_cons, or_iff_right (hids i hi)]
    exact db.mem_affected nodeid hi
  constructor
  · rintro ⟨hfits, hfound, -⟩
    refine ⟨hby ▸ hfits, fun i hi hmember s hs => ?_⟩
    exact (hfound i hi ((hmem i hi).mpr hmember) s hs).2
  · rintro ⟨hfits, hall⟩
    refine ⟨hby ▸ hfits, fun i hi hin s hs => ?_, fun i hi hmember hout => ?_⟩
    · have hmember := (hmem i hi).mp hin
      exact ⟨hmember, hall i hi hmember s hs⟩
    · exact absurd ((hmem i hi).mpr hmember) hout

/-- The values read are those wanted, item by item. -/
theorem perm_wanted_iff (itemids : List ℕ) (clock : Int32) :
    (Tally.keyed AggregateItem.itemid (fun i => db.readValues sqlFunc f clock i itemids) db.items).Perm
        (db.wanted nodeid sqlFunc hostgroup itemkey f clock) ↔
      (∀ i ∈ db.items, i.itemid ∈ itemids →
        ∀ s ∈ db.stored sqlFunc f clock i, db.Member nodeid hostgroup itemkey i ∧ s.1 = i.valueType ∧ ReadInFull s) ∧
      ∀ i ∈ db.items, db.Member nodeid hostgroup itemkey i → i.itemid ∉ itemids →
        db.itemValue sqlFunc f clock i = none := by
  rw [AggregateDb.wanted, Tally.perm_keyed_iff db.itemids_nodup, ← forall₂_and]
  refine forall₂_congr fun i _ => ?_
  rw [AggregateDb.readValues]
  by_cases hin : i.itemid ∈ itemids <;> by_cases hmember : db.Member nodeid hostgroup itemkey i
  · simp only [hin, hmember, if_true, true_implies, true_and, not_true_eq_false, false_implies, and_true]
    exact db.perm_stored_iff sqlFunc f clock i
  · simp only [hin, hmember, if_true, if_false, true_implies, false_and, not_true_eq_false, false_implies, and_true,
      imp_false]
    rw [List.perm_nil, List.map_eq_nil_iff, List.eq_nil_iff_forall_not_mem]
  · simp only [hin, hmember, if_true, if_false, true_implies, false_implies, not_false_eq_true, true_and]
    cases db.itemValue sqlFunc f clock i <;> simp
  · simp [hin, hmember]

/-- With the right values the result is right. -/
theorem aggregates_of_values (g : GroupFunc)
    (h : ((aggregateRows b nodeid server now hostgroup itemkey f param).map fun row => (row.itemid, row.number)).Perm
      (db.wanted nodeid sqlFunc hostgroup itemkey f (now - atoi param))) :
    server.Aggregates b nodeid now db sqlFunc hostgroup itemkey f g param := by
  have hvalues : ((aggregateRows b nodeid server now hostgroup itemkey f param).map AggregateRow.number).Perm
      ((db.wanted nodeid sqlFunc hostgroup itemkey f (now - atoi param)).map Prod.snd) := by
    have := h.map Prod.snd
    rwa [List.map_map] at this
  have hnil : (aggregateRows b nodeid server now hostgroup itemkey f param).map AggregateRow.number = [] ↔
      db.wanted nodeid sqlFunc hostgroup itemkey f (now - atoi param) = [] := by
    rw [← List.length_eq_zero_iff, hvalues.length_eq, List.length_map, List.length_eq_zero_iff]
  rcases evaluateAggregate_eq b nodeid server now g hostgroup itemkey f param with ⟨hvs, heq⟩ | ⟨hvs, r, heq, hr⟩
  · refine ⟨h, ?_, fun r' hr' => ?_⟩
    · exact iff_of_true ⟨_, heq⟩ (hnil.mp hvs)
    · rw [heq] at hr'
      cases hr'
  · refine ⟨h, ?_, fun r' hr' => ?_⟩
    · refine iff_of_false ?_ fun hw => hvs (hnil.mpr hw)
      rintro ⟨msg, hmsg⟩
      rw [heq] at hmsg
      cases hmsg
    · rw [heq, Except.ok.injEq] at hr'
      exact hr' ▸ hr.perm hvalues

/-- A server whose database answers the statements of a call, and everything else with some
rows. -/
def answeringServer (db : AggregateDb) (hostgroup itemkey : List UInt8) (f : ItemFunc) (clock : Int32)
    (others : List AggregateRow) : AggregateServer :=
  let itemids := db.affectedBy b nodeid rule hostgroup itemkey
  let sql := aggregateSql f (idList itemids) clock
  { itemids := fun _ => itemids
    select := fun text =>
      if text = sql.1 then (db.answers sqlFunc f clock (0 :: itemids)).1
      else if text = sql.2 then (db.answers sqlFunc f clock (0 :: itemids)).2
      else others }

theorem answers_answeringServer (others : List AggregateRow) :
    (answeringServer b nodeid sqlFunc rule db hostgroup itemkey f (now - atoi param) others).Answers b nodeid now db
      sqlFunc rule hostgroup itemkey f param where
  items := List.Perm.refl _
  first := by
    refine List.Perm.of_eq ?_
    exact if_pos rfl
  second := by
    refine List.Perm.of_eq ?_
    exact (if_neg (aggregateSql_ne f _ _)).trans (if_pos rfl)

/-- A statement that does not fit is answered with other rows. -/
theorem length_aggregateRows_of_not_fits
    (hfits : ¬SqlFits f (db.affectedBy b nodeid rule hostgroup itemkey) (now - atoi param))
    (others : List AggregateRow) :
    others.length ≤ (aggregateRows b nodeid
      (answeringServer b nodeid sqlFunc rule db hostgroup itemkey f (now - atoi param) others) now hostgroup itemkey f
        param).length := by
  set itemids := db.affectedBy b nodeid rule hostgroup itemkey with hids
  set server := answeringServer b nodeid sqlFunc rule db hostgroup itemkey f (now - atoi param) others with hserver
  have hselect : ∀ text, text ≠ (aggregateSql f (idList itemids) (now - atoi param)).1 →
      text ≠ (aggregateSql f (idList itemids) (now - atoi param)).2 → server.select text = others := by
    intro text h1 h2
    exact (if_neg h1).trans (if_neg h2)
  rw [aggregateRows]
  simp only [List.length_append]
  by_cases hfirst : (aggregateSql f (idList itemids) (now - atoi param)).1.length < maxStringLen
  · have hsecond : maxStringLen ≤ (aggregateSql f (idList itemids) (now - atoi param)).2.length :=
      not_lt.mp fun hlt => hfits ⟨hfirst, hlt⟩
    have hlist : itemList (affectedItemids b nodeid server hostgroup itemkey) = idList itemids := by
      have := length_items_lt f (idList itemids) (now - atoi param)
      change itemList itemids = idList itemids
      rw [itemList_eq, List.take_of_length_le (by omega)]
    rw [hlist, hselect _ (sent_second_ne f _ _) (zbxVsnprintf_ne hsecond _)]
    omega
  · rw [hselect _ (zbxVsnprintf_ne (not_lt.mp hfirst) _) (sent_first_ne f _ _ _ (not_lt.mp hfirst))]
    omega

/-- What follows when every such database leads to the right result. -/
theorem countable_of_aggregates {g : GroupFunc}
    (h : ∀ server : AggregateServer, server.Answers b nodeid now db sqlFunc rule hostgroup itemkey f param →
      server.Aggregates b nodeid now db sqlFunc hostgroup itemkey f g param) :
    db.Countable b nodeid sqlFunc rule hostgroup itemkey f (now - atoi param) := by
  have hfits : SqlFits f (db.affectedBy b nodeid rule hostgroup itemkey) (now - atoi param) := by
    by_contra hcut
    set others := List.replicate ((db.wanted nodeid sqlFunc hostgroup itemkey f (now - atoi param)).length + 1)
      (⟨0, .unknown, []⟩ : AggregateRow) with hothers
    have hlen := length_aggregateRows_of_not_fits b nodeid now db sqlFunc rule hcut others
    have hvalues := (h _ (answers_answeringServer b nodeid now db sqlFunc rule others)).values.length_eq
    rw [List.length_map] at hvalues
    rw [hvalues, hothers, List.length_replicate] at hlen
    omega
  have hserver : (answeringServer b nodeid sqlFunc rule db hostgroup itemkey f (now - atoi param) []).Answers b nodeid
      now db sqlFunc rule hostgroup itemkey f param := answers_answeringServer b nodeid now db sqlFunc rule []
  have hvalues := (hserver.perm_values b nodeid _ now db sqlFunc rule
    ((sqlFits_perm hserver.items _).mpr hfits)).symm.trans (h _ hserver).values
  obtain ⟨hfound, hmissed⟩ := (perm_wanted_iff nodeid db sqlFunc _ _).mp hvalues
  exact ⟨hfits, hfound, hmissed⟩

end Sent

/-- An unsigned item with the values 3 and 4, on a host of a group. -/
def threeAndFour : AggregateDb where
  items := [⟨1, 10, bytes "cpu", 0, .uint64, none⟩]
  hosts := [⟨10, 0⟩]
  groups := [⟨20, bytes "Servers"⟩]
  hostsGroups := [⟨10, 20⟩]
  history := []
  historyUint := [⟨1, 500, 3⟩, ⟨1, 600, 4⟩]
  itemids_nodup := by decide

/-- The average of 3 and 4. -/
def threeAndAHalf : Decimal := ⟨false, bytes "3", some (bytes "5000"), by decide, by decide⟩

/-- What the server makes of it. -/
example :
    evaluateAggregate .mysql (-1) (answeringServer .mysql (-1) (fun _ _ => threeAndAHalf) .itself threeAndFour
      (bytes "Servers") (bytes "cpu") (.history .avg) 400 []) 1000 (bytes "grpavg") (bytes "Servers") (bytes "cpu")
        (bytes "avg") (bytes "600") = .ok 3 := by
  decide +kernel

end Zabbix
