import Zabbix.Lib.CircBuf
import Zabbix.Lib.Batch
import Zabbix.Str

/-!
# Zabbix.DbCache.History

The history cache of `libs/zbxdbcache/dbcache.c`: a ring of
`ZBX_HISTORY_SIZE` entries in shared memory and a text buffer that holds the
strings of the queued entries.

* `dcGetHistoryPtr` reserves a ring slot and room in the text buffer,
  compacting the buffer (`dcVacuumText`) when the room is short;
* `dcAddHistory` … `dcAddHistoryLog` fill the slot;
* `dcSyncBatch` is the locked section of `DCsync_history`: it takes a batch of
  at most `ZBX_SYNC_MAX` entries out of the ring.

Entries are generic in the type `δ` of doubles and in the type `σ` of the
strings they carry: an entry in the ring holds offsets into the text buffer,
an entry of a batch holds the strings themselves (`strdup`).  The union
`history_value_t`, its tag `value_type` and the fields used by log entries
only are one sum type, `HistoryValue`.
-/

namespace Zabbix

/-! ## sizes -/

def zbxHistorySize : Nat := 100000
def zbxSyncMax : Nat := 1000
def zbxTextbufferSize : Nat := 16384 * 1024

def historyStrValueLen : Nat := 255
def historyStrValueLenMax : Nat := historyStrValueLen + 1
def historyTextValueLen : Nat := 65535
def historyTextValueLenMax : Nat := historyTextValueLen + 1
def historyLogValueLen : Nat := 65535
def historyLogValueLenMax : Nat := historyLogValueLen + 1
def historyLogSourceLen : Nat := 64
def historyLogSourceLenMax : Nat := historyLogSourceLen + 1

/-! ## entries -/

/-- The process kinds that own a database cache (`zbx_process_t`). -/
inductive ZbxProcess
  | server
  | proxy
deriving DecidableEq, Repr

/-- `value_type` together with `value_orig`, the computed `value` of numeric
entries, and the fields that only log entries use.  `source` is `none` for a
NULL pointer. -/
inductive HistoryValue (δ σ : Type)
  | float (valueOrig value : δ)
  | uint64 (valueOrig value : UInt64)
  | str (valueOrig : σ)
  | text (valueOrig : σ)
  | log (valueOrig : σ) (timestamp : Int32) (source : Option σ) (severity lastlogsize : Int32)
deriving DecidableEq, Repr

/-- `ZBX_DC_HISTORY`. -/
structure ZbxDcHistory (δ σ : Type) where
  itemid : UInt64
  clock : Int32
  value : HistoryValue δ σ
  valueNull : Bool := false
  keepHistory : Int32 := 0
  keepTrends : Int32 := 0
deriving DecidableEq, Repr

/-- An entry with its strings: what a `DCadd_history*` call hands over and
what a batch carries. -/
abbrev Sample (δ : Type) : Type := ZbxDcHistory δ (List UInt8)

namespace HistoryValue

variable {δ σ τ : Type}

/-- Replace the strings of a value. -/
def map (f : σ → τ) : HistoryValue δ σ → HistoryValue δ τ
  | float o v => float o v
  | uint64 o v => uint64 o v
  | str s => str (f s)
  | text s => text (f s)
  | log s timestamp source severity lastlogsize =>
      log (f s) timestamp (source.map f) severity lastlogsize

/-- `value_orig.value_str`, for the string types. -/
def valueStr : HistoryValue δ σ → Option σ
  | float .. | uint64 .. => none
  | str s | text s => some s
  | log s .. => some s

/-- The strings of a value, in the order in which they are stored. -/
def strings : HistoryValue δ σ → List σ
  | float .. | uint64 .. => []
  | str s | text s => [s]
  | log s _ source .. => s :: source.toList

@[simp] theorem strings_map (f : σ → τ) (v : HistoryValue δ σ) :
    (v.map f).strings = v.strings.map f := by
  cases v with
  | log _ _ source _ _ => cases source <;> rfl
  | _ => rfl

/-- `value_orig.value_str` is the first of the strings. -/
theorem valueStr_eq_head? (v : HistoryValue δ σ) : v.valueStr = v.strings.head? := by
  cases v <;> rfl

@[simp] theorem map_map {υ : Type} (f : σ → τ) (g : τ → υ) (v : HistoryValue δ σ) :
    (v.map f).map g = v.map (g ∘ f) := by
  cases v with
  | log _ _ source _ _ => cases source <;> rfl
  | _ => rfl

/-- A value is determined by what becomes of its strings. -/
theorem map_congr {f g : σ → τ} {v : HistoryValue δ σ} (h : ∀ s ∈ v.strings, f s = g s) :
    v.map f = v.map g := by
  cases v with
  | float _ _ | uint64 _ _ => rfl
  | str s | text s => simp [map, h s (by simp [strings])]
  | log s _ source _ _ =>
      have hs := h s (by simp [strings])
      cases source with
      | none => simp [map, hs]
      | some t => simp [map, hs, h t (by simp [strings])]

end HistoryValue

namespace ZbxDcHistory

variable {δ σ τ : Type}

/-- Replace the strings of an entry. -/
def map (f : σ → τ) (e : ZbxDcHistory δ σ) : ZbxDcHistory δ τ :=
  { itemid := e.itemid, clock := e.clock, value := e.value.map f, valueNull := e.valueNull,
    keepHistory := e.keepHistory, keepTrends := e.keepTrends }

@[simp] theorem itemid_map (f : σ → τ) (e : ZbxDcHistory δ σ) : (e.map f).itemid = e.itemid :=
  rfl

@[simp] theorem value_map (f : σ → τ) (e : ZbxDcHistory δ σ) : (e.map f).value = e.value.map f :=
  rfl

@[simp] theorem map_map {υ : Type} (f : σ → τ) (g : τ → υ) (e : ZbxDcHistory δ σ) :
    (e.map f).map g = e.map (g ∘ f) := by
  simp [map]

/-- An entry is determined by what becomes of its strings. -/
theorem map_congr {f g : σ → τ} {e : ZbxDcHistory δ σ} (h : ∀ s ∈ e.value.strings, f s = g s) :
    e.map f = e.map g := by
  simp only [map, HistoryValue.map_congr h]

end ZbxDcHistory

/-! ## the cache -/

/-- The history part of `ZBX_DC_CACHE`.  `text` is addressed from
`cache->text`, so `lastText` is `cache->last_text - cache->text`. -/
structure ZbxDcCache (δ : Type) where
  historyFirst : Fin zbxHistorySize
  historyNum : Nat
  history : Fin zbxHistorySize → ZbxDcHistory δ Nat
  text : Mem
  lastText : Nat
  historyNum_le : historyNum ≤ zbxHistorySize

namespace ZbxDcCache

variable {δ : Type}

/-- The queued entries: `history_num` of them from `history_first` on, modulo
`ZBX_HISTORY_SIZE`. -/
def queue (c : ZbxDcCache δ) : List (ZbxDcHistory δ Nat) :=
  CircBuf.contents c.history c.historyFirst c.historyNum

/-- `strdup` of a string of the text buffer. -/
def strdup (c : ZbxDcCache δ) (p : Nat) : List UInt8 := c.text.strAt zbxTextbufferSize p

/-- The queue with the strings its entries designate. -/
def samples (c : ZbxDcCache δ) : List (ZbxDcHistory δ (List UInt8)) :=
  c.queue.map fun e => e.map c.strdup

end ZbxDcCache

variable {δ : Type}

/-- `init_database_cache`: the counters are reset, the arrays are left as the
shared memory segment has them. -/
def initDatabaseCache (history : Fin zbxHistorySize → ZbxDcHistory δ Nat) (text : Mem) :
    ZbxDcCache δ :=
  { historyFirst := ⟨0, by decide⟩, historyNum := 0, history, text, lastText := 0,
    historyNum_le := by decide }

/-! ## reserving room -/

/-- `DCvacuum_text`: move the strings of the queued entries to the start of
the text buffer, and the pointers of the entries with them. -/
def dcVacuumText (c : ZbxDcCache δ) : ZbxDcCache δ :=
  match c.queue.findSome? fun e => e.value.valueStr with
  | some firstText =>
      let offset := firstText
      if offset = 0 then c
      else
        { c with
          text := c.text.move 0 firstText (zbxTextbufferSize - offset)
          history := CircBuf.mapCells (fun e => e.map (· - offset)) c.historyFirst c.historyNum
            c.history
          lastText := c.lastText - offset }
  | none => { c with lastText := 0 }

/-- Vacuuming does not add or remove entries. -/
@[simp] theorem historyNum_dcVacuumText (c : ZbxDcCache δ) :
    (dcVacuumText c).historyNum = c.historyNum := by
  unfold dcVacuumText
  split
  · dsimp only
    split <;> rfl
  · rfl

/-- The outcomes of one attempt of `DCget_history_ptr`. -/
inductive HistoryPtr (δ : Type)
  /-- `exit(-1)`: the text can never fit. -/
  | exit
  /-- No room: the lock is released and the caller sleeps before `goto retry`. -/
  | retry (c : ZbxDcCache δ)
  /-- The slot one past the queue is free and the text buffer has the room. -/
  | ptr (c : ZbxDcCache δ) (h : c.historyNum < zbxHistorySize)

/-- `DCget_history_ptr`, one attempt: find a free slot and `textLen` bytes of
text.  The caller counts the slot when it has filled it. -/
def dcGetHistoryPtr (c : ZbxDcCache δ) (textLen : Nat) : HistoryPtr δ :=
  if h : c.historyNum < zbxHistorySize then
    if textLen ≠ 0 then
      if zbxTextbufferSize < textLen then .exit
      else if zbxTextbufferSize - c.lastText < textLen then
        if zbxTextbufferSize - (dcVacuumText c).lastText < textLen then .retry (dcVacuumText c)
        else .ptr (dcVacuumText c) (by rwa [historyNum_dcVacuumText])
      else .ptr c h
    else .ptr c h
  else .retry c

/-! ## adding values -/

/-- The outcomes of a `DCadd_history*` call up to its first sleep. -/
inductive HistoryAdd (δ : Type)
  | exit
  | retry (c : ZbxDcCache δ)
  | done (c : ZbxDcCache δ)

/-- What the `DCadd_history*` functions share: reserve a slot and `textLen`
bytes of text, store the entry in the slot one past the queue and let `store`
put its strings into the text buffer at `last_text`. -/
def dcAddHistoryWith (c : ZbxDcCache δ) (textLen : Nat) (entry : Nat → ZbxDcHistory δ Nat)
    (store : Mem → Nat → Mem) : HistoryAdd δ :=
  match dcGetHistoryPtr c textLen with
  | .exit => .exit
  | .retry c => .retry c
  | .ptr c h => .done
      { c with
        history := Function.update c.history (CircBuf.index c.historyFirst c.historyNum)
          (entry c.lastText)
        historyNum := c.historyNum + 1
        text := store c.text c.lastText
        lastText := c.lastText + textLen
        historyNum_le := h }

/-- `DCadd_history`. -/
def dcAddHistory [Zero δ] (c : ZbxDcCache δ) (itemid : UInt64) (valueOrig : δ) (clock : Int32) :
    HistoryAdd δ :=
  dcAddHistoryWith c 0 (fun _ => { itemid, clock, value := .float valueOrig 0 }) fun m _ => m

/-- `DCadd_history_uint`. -/
def dcAddHistoryUint (c : ZbxDcCache δ) (itemid : UInt64) (valueOrig : UInt64) (clock : Int32) :
    HistoryAdd δ :=
  dcAddHistoryWith c 0 (fun _ => { itemid, clock, value := .uint64 valueOrig 0 }) fun m _ => m

/-- The bytes that `s` takes in the text buffer, its NUL included, when at
most `max` are stored. -/
def textLenMax (s : List UInt8) (max : Nat) : Nat := if max < s.length + 1 then max else s.length + 1

/-- `DCadd_history_str`. -/
def dcAddHistoryStr (c : ZbxDcCache δ) (itemid : UInt64) (valueOrig : CString) (clock : Int32) :
    HistoryAdd δ :=
  let len := textLenMax valueOrig.val historyStrValueLenMax
  dcAddHistoryWith c len (fun lastText => { itemid, clock, value := .str lastText })
    fun m lastText => zbxStrlcpy m lastText valueOrig.val len

/-- `DCadd_history_text`. -/
def dcAddHistoryText (c : ZbxDcCache δ) (itemid : UInt64) (valueOrig : CString) (clock : Int32) :
    HistoryAdd δ :=
  let len := textLenMax valueOrig.val historyTextValueLenMax
  dcAddHistoryWith c len (fun lastText => { itemid, clock, value := .text lastText })
    fun m lastText => zbxStrlcpy m lastText valueOrig.val len

/-- `DCadd_history_log`: the source follows the value in the text buffer; a
NULL or empty source is stored as NULL. -/
def dcAddHistoryLog (c : ZbxDcCache δ) (itemid : UInt64) (valueOrig : CString)
    (clock timestamp : Int32) (source : Option CString) (severity lastlogsize : Int32) :
    HistoryAdd δ :=
  let len1 := textLenMax valueOrig.val historyLogValueLenMax
  match source.filter fun s => s.val ≠ [] with
  | some source =>
      let len2 := textLenMax source.val historyLogSourceLenMax
      dcAddHistoryWith c (len1 + len2)
        (fun lastText =>
          { itemid, clock
            value := .log lastText timestamp (some (lastText + len1)) severity lastlogsize })
        fun m lastText =>
          zbxStrlcpy (zbxStrlcpy m lastText valueOrig.val len1) (lastText + len1) source.val len2
  | none =>
      dcAddHistoryWith c len1
        (fun lastText =>
          { itemid, clock, value := .log lastText timestamp none severity lastlogsize })
        fun m lastText => zbxStrlcpy m lastText valueOrig.val len1

/-! ## taking a batch -/

/-- `DCitem_already_exists`. -/
def dcItemAlreadyExists {σ : Type} (history : List (ZbxDcHistory δ σ)) (itemid : UInt64) : Bool :=
  history.any fun e => itemid = e.itemid

/-- Take the entry in cell `f` out of the ring: the entries before it slide
forward by one and the queue starts one cell later. -/
def ZbxDcCache.remove (c : ZbxDcCache δ) (f : Fin zbxHistorySize) : ZbxDcCache δ :=
  { c with
    history := CircBuf.slide c.historyFirst f c.history
    historyNum := c.historyNum - 1
    historyFirst := CircBuf.index c.historyFirst 1
    historyNum_le := Nat.le_trans (Nat.sub_le _ _) c.historyNum_le }

/-- A batch, the clock of the first skipped entry (0 when none was skipped)
and the cache that the batch leaves. -/
structure SyncBatch (δ : Type) where
  history : List (ZbxDcHistory δ (List UInt8))
  skippedClock : Int32
  cache : ZbxDcCache δ

/-- The locked loop of `DCsync_history`, with `n` entries left to look at from
cell `f` on: on a server an item that the batch already holds is skipped. -/
def dcSyncLoop (p : ZbxProcess) :
    (n : Nat) → (f : Fin zbxHistorySize) → SyncBatch δ → SyncBatch δ
  | 0, _, b => b
  | n + 1, f, b =>
      if b.history.length < zbxSyncMax then
        if p = .proxy ∨ dcItemAlreadyExists b.history (b.cache.history f).itemid = false then
          dcSyncLoop p n (CircBuf.index f 1)
            { b with
              history := b.history ++ [(b.cache.history f).map b.cache.strdup]
              cache := b.cache.remove f }
        else
          dcSyncLoop p n (CircBuf.index f 1)
            { b with
              skippedClock :=
                if b.skippedClock = 0 then (b.cache.history f).clock else b.skippedClock }
      else b

/-- The locked section of `DCsync_history`: one batch. -/
def dcSyncBatch (p : ZbxProcess) (c : ZbxDcCache δ) : SyncBatch δ :=
  dcSyncLoop p c.historyNum c.historyFirst { history := [], skippedClock := 0, cache := c }

end Zabbix
