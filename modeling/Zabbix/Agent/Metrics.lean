import Zabbix.Json.Record

/-!
# Zabbix.Agent.Metrics

The list of active checks of an agent (`zabbix_agent/active.c`): what a response
of the server makes of it, and when its metrics are checked.

A metric is never forgotten: one that the server does not list any more is only
disabled, so a log that is listed again is read on from where it was left
(`find_refreshed`, `kept_parseListOfChecks`).
-/

namespace Zabbix

open Ascii

/-! ## metrics -/

/-- `ITEM_STATUS_ACTIVE` and `ITEM_STATUS_NOTSUPPORTED`, as far as metrics have
them. -/
inductive MetricStatus
  | active
  | notsupported
deriving DecidableEq, Repr

/-- `ZBX_ACTIVE_METRIC` -/
structure ActiveMetric where
  key : CString
  keyOrig : CString
  refresh : Int32
  nextcheck : ℤ
  status : MetricStatus
  lastlogsize : ℤ
deriving DecidableEq

/-- A check as the server lists it. -/
structure ActiveCheck where
  key : CString
  keyOrig : CString
  refresh : Int32
  lastlogsize : Int32
deriving DecidableEq

/-- `add_check`, for a metric that there is. -/
def ActiveMetric.replace (x : ActiveMetric) (refresh : Int32) : ActiveMetric :=
  { x with
    nextcheck := if x.refresh ≠ refresh then 0 else x.nextcheck
    refresh := refresh
    status := .active }

/-- `add_check`, for a new metric. -/
def ActiveCheck.metric (c : ActiveCheck) : ActiveMetric :=
  { key := c.key
    keyOrig := c.keyOrig
    refresh := c.refresh
    nextcheck := 0
    status := .active
    lastlogsize := c.lastlogsize.toInt }

@[simp] theorem key_replace (x : ActiveMetric) (refresh : Int32) : (x.replace refresh).key = x.key := rfl

@[simp] theorem key_metric (c : ActiveCheck) : c.metric.key = c.key := rfl

/-- The loop of `add_check`. -/
def addCheckLoop (c : ActiveCheck) : List ActiveMetric → List ActiveMetric
  | [] => [c.metric]
  | x :: metrics => if x.key = c.key then x.replace c.refresh :: metrics else x :: addCheckLoop c metrics

theorem map_key_addCheckLoop (c : ActiveCheck) (metrics : List ActiveMetric) :
    (addCheckLoop c metrics).map (·.key) =
      if c.key ∈ metrics.map (·.key) then metrics.map (·.key) else metrics.map (·.key) ++ [c.key] := by
  induction metrics with
  | nil => rfl
  | cons x metrics ih =>
      rw [addCheckLoop]
      by_cases hx : x.key = c.key
      · rw [if_pos hx, List.map_cons, List.map_cons, if_pos (by rw [hx]; exact List.mem_cons_self ..)]
        rfl
      · rw [if_neg hx, List.map_cons, ih, List.map_cons]
        by_cases hc : c.key ∈ metrics.map (·.key)
        · rw [if_pos hc, if_pos (List.mem_cons_of_mem _ hc)]
        · rw [if_neg hc, if_neg (List.not_mem_cons_of_ne_of_not_mem (Ne.symm hx) hc), List.cons_append]

/-- `active_metrics`: no two have the same key. -/
structure ActiveMetrics where
  metrics : List ActiveMetric
  nodup : (metrics.map (·.key)).Nodup

namespace ActiveMetrics

/-- `init_active_metrics` -/
def empty : ActiveMetrics := { metrics := [], nodup := List.nodup_nil }

/-- The keys. -/
def keys (m : ActiveMetrics) : List CString := m.metrics.map (·.key)

/-- Change metrics, but not their keys. -/
def update (m : ActiveMetrics) (f : ActiveMetric → ActiveMetric) (hf : ∀ x, (f x).key = x.key) : ActiveMetrics where
  metrics := m.metrics.map f
  nodup := by
    rw [List.map_map]
    have hkey : (fun x : ActiveMetric => x.key) ∘ f = fun x => x.key := funext hf
    rw [hkey]
    exact m.nodup

/-- `disable_all_metrics` -/
def disableAll (m : ActiveMetrics) : ActiveMetrics :=
  m.update (fun x => { x with status := .notsupported }) fun _ => rfl

/-- `add_check` -/
def addCheck (m : ActiveMetrics) (c : ActiveCheck) : ActiveMetrics where
  metrics := addCheckLoop c m.metrics
  nodup := by
    rw [map_key_addCheckLoop]
    split
    · exact m.nodup
    · next h => exact List.nodup_append.mpr ⟨m.nodup, List.nodup_singleton _, by
        rintro key hkey _ hc rfl
        rw [List.mem_singleton.mp hc] at hkey
        exact h hkey⟩

/-- `get_min_nextcheck`; there may be no active metric. -/
def minNextcheck (m : ActiveMetrics) : Option ℤ :=
  let min := m.metrics.foldl (fun min x =>
    if x.status ≠ .active then min
    else if x.nextcheck < min ∨ min = -1 then x.nextcheck else min) (-1)
  if min = -1 then none else some min

/-- The metric of a key. -/
def find (m : ActiveMetrics) (key : CString) : Option ActiveMetric := m.metrics.find? (·.key = key)

/-- `add_check`, one check after the other. -/
def addChecks (m : ActiveMetrics) (checks : List ActiveCheck) : ActiveMetrics := checks.foldl addCheck m

end ActiveMetrics

/-! ## what a list makes of the metrics -/

/-- What a check makes of the metric of its key, if there is one. -/
def ActiveCheck.addTo (x : Option ActiveMetric) (c : ActiveCheck) : Option ActiveMetric :=
  some ((x.map (·.replace c.refresh)).getD c.metric)

theorem find?_cons_of_key {x : ActiveMetric} {key : CString} (h : x.key = key) (metrics : List ActiveMetric) :
    (x :: metrics).find? (·.key = key) = some x :=
  List.find?_cons_of_pos (decide_eq_true h)

theorem find?_cons_of_key_ne {x : ActiveMetric} {key : CString} (h : x.key ≠ key) (metrics : List ActiveMetric) :
    (x :: metrics).find? (·.key = key) = metrics.find? (·.key = key) :=
  List.find?_cons_of_neg fun hkey => h (of_decide_eq_true hkey)

theorem find?_addCheckLoop (c : ActiveCheck) (metrics : List ActiveMetric) (key : CString) :
    (addCheckLoop c metrics).find? (·.key = key) =
      if c.key = key then c.addTo (metrics.find? (·.key = key)) else metrics.find? (·.key = key) := by
  induction metrics with
  | nil =>
      by_cases hkey : c.key = key
      · rw [addCheckLoop, if_pos hkey, find?_cons_of_key (key_metric c ▸ hkey)]
        rfl
      · rw [addCheckLoop, if_neg hkey, find?_cons_of_key_ne (key_metric c ▸ hkey)]
  | cons x metrics ih =>
      rw [addCheckLoop]
      by_cases hx : x.key = key
      · rw [find?_cons_of_key hx]
        by_cases hkey : c.key = key
        · rw [if_pos (hx.trans hkey.symm), if_pos hkey, find?_cons_of_key (key_replace x c.refresh ▸ hx)]
          rfl
        · rw [if_neg fun heq => hkey (heq.symm.trans hx), if_neg hkey, find?_cons_of_key hx]
      · rw [find?_cons_of_key_ne hx]
        split
        · next heq =>
            have hkey : c.key ≠ key := fun h => hx (heq.trans h)
            rw [if_neg hkey, find?_cons_of_key_ne (key_replace x c.refresh ▸ hx)]
        · rw [find?_cons_of_key_ne hx, ih]

/-- The checks of a key. -/
def checksOf (checks : List ActiveCheck) (key : CString) : List ActiveCheck := checks.filter (·.key = key)

/-- Only the checks of its key change a metric. -/
theorem find_addChecks (m : ActiveMetrics) (checks : List ActiveCheck) (key : CString) :
    (m.addChecks checks).find key = (checksOf checks key).foldl (fun x c => c.addTo x) (m.find key) := by
  induction checks generalizing m with
  | nil => rfl
  | cons c checks ih =>
      have hstep : (m.addCheck c).find key = if c.key = key then c.addTo (m.find key) else m.find key :=
        find?_addCheckLoop c m.metrics key
      have hrest := ih (m.addCheck c)
      rw [hstep] at hrest
      rw [ActiveMetrics.addChecks, List.foldl_cons]
      refine hrest.trans ?_
      rw [checksOf, checksOf, List.filter_cons]
      by_cases hkey : c.key = key
      · rw [if_pos hkey, if_pos (by simpa using hkey), List.foldl_cons]
      · rw [if_neg hkey, if_neg (by simpa using hkey)]

/-- The refresh interval that is listed last. -/
def lastRefresh (c : ActiveCheck) (checks : List ActiveCheck) : Int32 :=
  ((c :: checks).getLast (List.cons_ne_nil _ _)).refresh

/-- What becomes of a metric, if there is one, with these checks of its key: it
is due at once when its refresh interval changes. -/
def listedMetric : Option ActiveMetric → List ActiveCheck → Option ActiveMetric
  | x, [] => x
  | some x, c :: checks =>
      some { x with
        refresh := lastRefresh c checks
        nextcheck := if ∀ d ∈ c :: checks, d.refresh = x.refresh then x.nextcheck else 0
        status := .active }
  | none, c :: checks => some { c.metric with refresh := lastRefresh c checks }

theorem foldl_addTo_some (x : ActiveMetric) (c : ActiveCheck) (checks : List ActiveCheck) :
    (c :: checks).foldl (fun x c => c.addTo x) (some x) = listedMetric (some x) (c :: checks) := by
  induction checks generalizing x c with
  | nil =>
      rw [List.foldl_cons, List.foldl_nil, ActiveCheck.addTo, listedMetric]
      by_cases h : c.refresh = x.refresh <;> simp [ActiveMetric.replace, h, Ne.symm, lastRefresh]
  | cons d checks ih =>
      rw [List.foldl_cons, ActiveCheck.addTo, Option.map_some, Option.getD_some, ih, listedMetric, listedMetric]
      by_cases h : c.refresh = x.refresh
      · simp [ActiveMetric.replace, h, lastRefresh]
      · simp [ActiveMetric.replace, h, Ne.symm h, lastRefresh]

/-- The checks of a key, one after the other. -/
theorem foldl_addTo (x : Option ActiveMetric) (checks : List ActiveCheck) :
    checks.foldl (fun x c => c.addTo x) x = listedMetric x checks := by
  cases checks with
  | nil =>
      cases x <;> rfl
  | cons c checks =>
      cases x with
      | some x => exact foldl_addTo_some x c checks
      | none =>
          rw [List.foldl_cons, ActiveCheck.addTo]
          cases checks with
          | nil => rfl
          | cons d checks =>
              refine (foldl_addTo_some c.metric d checks).trans ?_
              rw [listedMetric, listedMetric]
              simp [ActiveCheck.metric, lastRefresh]

/-- Metrics stay where they are. -/
theorem keys_addChecks (m : ActiveMetrics) (checks : List ActiveCheck) : m.keys <+: (m.addChecks checks).keys := by
  induction checks generalizing m with
  | nil => exact List.prefix_rfl
  | cons c checks ih =>
      have hstep : m.keys <+: (m.addCheck c).keys := by
        have hkeys : (m.addCheck c).keys = if c.key ∈ m.keys then m.keys else m.keys ++ [c.key] :=
          map_key_addCheckLoop c m.metrics
        rw [hkeys]
        split
        · exact List.prefix_rfl
        · exact List.prefix_append ..
      exact hstep.trans (ih (m.addCheck c))

theorem find_disableAll (m : ActiveMetrics) (key : CString) :
    m.disableAll.find key = (m.find key).map fun x => { x with status := .notsupported } := by
  have hfind : ∀ metrics : List ActiveMetric,
      (metrics.map fun x : ActiveMetric => { x with status := MetricStatus.notsupported }).find? (·.key = key) =
        (metrics.find? (·.key = key)).map fun x => { x with status := .notsupported } := by
    intro metrics
    rw [List.find?_map]
    rfl
  exact hfind m.metrics

/-- **What a list makes of the metrics**: the metric of each key is that of the
checks of the key, and disabled when there are none. -/
theorem find_refreshed (m : ActiveMetrics) (checks : List ActiveCheck) (key : CString) :
    (m.disableAll.addChecks checks).find key =
      listedMetric ((m.find key).map fun x => { x with status := .notsupported }) (checksOf checks key) := by
  rw [find_addChecks, foldl_addTo, find_disableAll]

/-! ## the response of the server -/

/-- An object of the list: `add_check` is called when nothing is missing. -/
def parseCheckRow (m : ActiveMetrics) (jpRow : ZbxJsonParse) : Option ActiveMetrics :=
  match jsonString jpRow (literal "key") maxStringLen with
  | none => none
  | some none => some m
  | some (some key) =>
      match jsonString jpRow (literal "key_orig") maxStringLen with
      | none => none
      | some keyOrig =>
          match jsonString jpRow (literal "delay") maxStringLen with
          | none => none
          | some none => some m
          | some (some delay) =>
              match jsonString jpRow (literal "lastlogsize") maxStringLen with
              | none => none
              | some none => some m
              | some (some lastlogsize) =>
                  some (if key.val ≠ [] ∧ delay.val ≠ [] ∧ lastlogsize.val ≠ [] then
                      m.addCheck
                        { key := key
                          keyOrig := ((keyOrig.filter fun s => s.val ≠ []).getD key)
                          refresh := atoi delay.val
                          lastlogsize := atoi lastlogsize.val }
                    else m)

/-- The body of the loop of `parse_list_of_checks`. -/
def parseCheck (m : ActiveMetrics) (p : Ptr) : Option (ActiveMetrics × Bool) :=
  match zbxJsonBracketsOpen p with
  | .overrun => none
  | .null => some (m, false)
  | .found jpRow => (parseCheckRow m jpRow).map (·, true)

/-- `parse_list_of_checks`; without a result, it reads behind the end of the
response.  The `info` of a failure is only logged. -/
def parseListOfChecks (m : ActiveMetrics) (str : List UInt8) : Option ActiveMetrics :=
  let m := m.disableAll
  match zbxJsonOpen str with
  | .overrun => none
  | .null => some m
  | .found jp =>
      match jsonString jp (literal "response") maxStringLen with
      | none => none
      | some none => some m
      | some (some result) =>
          if result ≠ literal "success" then (jsonString jp (literal "info") maxStringLen).map fun _ => m
          else
            match zbxJsonPairByName jp (literal "data").val with
            | .overrun => none
            | .null => some m
            | .found p =>
                match zbxJsonBracketsOpen p with
                | .overrun => none
                | .null => some m
                | .found jpData => (jsonWhile jpData parseCheck m none).map (·.1)

/-! ## what no response changes -/

/-- Metrics stay where they are, with their keys and offsets. -/
def ActiveMetrics.Kept (m m' : ActiveMetrics) : Prop :=
  ∀ (i : ℕ) (x : ActiveMetric), m.metrics[i]? = some x →
    ∃ x', m'.metrics[i]? = some x' ∧ x'.key = x.key ∧ x'.keyOrig = x.keyOrig ∧ x'.lastlogsize = x.lastlogsize

theorem ActiveMetrics.Kept.trans {m m' m'' : ActiveMetrics} (h : m.Kept m') (h' : m'.Kept m'') : m.Kept m'' := by
  intro i x hx
  obtain ⟨x', hx', hkey, hkeyOrig, hoffset⟩ := h i x hx
  obtain ⟨x'', hx'', hkey', hkeyOrig', hoffset'⟩ := h' i x' hx'
  exact ⟨x'', hx'', hkey'.trans hkey, hkeyOrig'.trans hkeyOrig, hoffset'.trans hoffset⟩

theorem kept_refl (m : ActiveMetrics) : m.Kept m := fun _ x hx => ⟨x, hx, rfl, rfl, rfl⟩

theorem kept_disableAll (m : ActiveMetrics) : m.Kept m.disableAll := by
  intro i x hx
  have hmap : m.disableAll.metrics[i]? = (m.metrics[i]?).map fun x => { x with status := .notsupported } :=
    List.getElem?_map
  exact ⟨{ x with status := .notsupported }, hmap.trans (by rw [hx, Option.map_some]), rfl, rfl, rfl⟩

theorem kept_addCheck (m : ActiveMetrics) (c : ActiveCheck) : m.Kept (m.addCheck c) := by
  have hloop : ∀ (metrics : List ActiveMetric) (i : ℕ) (x : ActiveMetric), metrics[i]? = some x →
      ∃ x', (addCheckLoop c metrics)[i]? = some x' ∧
        x'.key = x.key ∧ x'.keyOrig = x.keyOrig ∧ x'.lastlogsize = x.lastlogsize := by
    intro metrics
    induction metrics with
    | nil => exact fun i x hx => nomatch hx
    | cons y metrics ih =>
        intro i x hx
        rw [addCheckLoop]
        split
        · cases i with
          | zero =>
              obtain rfl := Option.some.inj hx
              exact ⟨_, rfl, rfl, rfl, rfl⟩
          | succ i => exact ⟨x, hx, rfl, rfl, rfl⟩
        · cases i with
          | zero => exact ⟨x, hx, rfl, rfl, rfl⟩
          | succ i => exact ih i x hx
  exact hloop m.metrics

theorem kept_parseCheckRow {m : ActiveMetrics} {jpRow : ZbxJsonParse} {m' : ActiveMetrics}
    (h : parseCheckRow m jpRow = some m') : m.Kept m' := by
  rw [parseCheckRow] at h
  repeat' split at h
  all_goals first
    | cases h; exact kept_refl m
    | cases h; exact kept_addCheck m _
    | cases h

/-- **Whatever is received**, metrics stay where they are, with their keys and
offsets. -/
theorem kept_parseListOfChecks {m m' : ActiveMetrics} {str : List UInt8} (h : parseListOfChecks m str = some m') :
    m.Kept m' := by
  have hdisable := kept_disableAll m
  rw [parseListOfChecks] at h
  split at h
  · cases h
  · cases h
    exact hdisable
  · split at h
    · cases h
    · cases h
      exact hdisable
    · split at h
      · obtain ⟨_, _, rfl⟩ := Option.map_eq_some_iff.mp h
        exact hdisable
      · split at h
        · cases h
        · cases h
          exact hdisable
        · split at h
          · cases h
          · cases h
            exact hdisable
          · obtain ⟨r, hr, rfl⟩ := Option.map_eq_some_iff.mp h
            refine jsonWhile_keeps (fun s q r hs hbody => ?_) hdisable hr
            rw [parseCheck] at hbody
            split at hbody
            · cases hbody
            · obtain rfl := Option.some.inj hbody
              exact hs
            · obtain ⟨s', hs', rfl⟩ := Option.map_eq_some_iff.mp hbody
              exact hs.trans (kept_parseCheckRow hs')

end Zabbix
