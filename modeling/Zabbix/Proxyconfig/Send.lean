import Zabbix.Proxyconfig.Database

/-!
# Zabbix.Proxyconfig.Send

The configuration that the server sends to a proxy (`zabbix_server/trapper/proxyconfig.c`).
-/

namespace Zabbix

open Ascii Printf

/-! ## the selection -/

/-- A column holds a number. -/
def DbRow.has (row : DbRow) (fieldname : CString) (n : ℕ) : Bool :=
  (row.column fieldname).map Subtype.val = some (dec n)

/-- `HOST_STATUS_MONITORED`, and `DRULE_STATUS_MONITORED` -/
def statusMonitored : ℕ := 0

/-- `ITEM_STATUS_ACTIVE` and `ITEM_STATUS_NOTSUPPORTED` -/
def itemStatuses : List ℕ := [0, 3]

/-- The types of the items that a proxy is sent: `ITEM_TYPE_ZABBIX`,
`ITEM_TYPE_ZABBIX_ACTIVE`, `ITEM_TYPE_SNMPv1`, `ITEM_TYPE_SNMPv2c`,
`ITEM_TYPE_SNMPv3`, `ITEM_TYPE_IPMI`, `ITEM_TYPE_TRAPPER`, `ITEM_TYPE_SIMPLE`,
`ITEM_TYPE_HTTPTEST`, `ITEM_TYPE_EXTERNAL`, `ITEM_TYPE_DB_MONITOR`. -/
def itemTypes : List ℕ := [0, 7, 1, 4, 6, 12, 2, 3, 9, 10, 11]

/-- The conditions of the select on a row `t`, and on the row `r` of `reltable` with
its `relfield`, which is the key of that table. -/
def proxyconfigWhere (rows : CString → List DbRow) (proxyHostid : ℕ) (pt : Proxytable) (t : DbRow) : Bool :=
  (match pt.rel with
    | none => t.has (cname "proxy_hostid") proxyHostid
    | some (reltable, relfield) =>
        (rows reltable).any fun r =>
          t.has relfield r.recid && r.has (cname "proxy_hostid") proxyHostid &&
            ((reltable ≠ cname "hosts" && reltable ≠ cname "drules") || r.has (cname "status") statusMonitored)) &&
    ((pt.table ≠ cname "hosts" && pt.table ≠ cname "drules") || t.has (cname "status") statusMonitored) &&
    (pt.table ≠ cname "items" ||
      (itemStatuses.any (t.has (cname "status")) && itemTypes.any (t.has (cname "type"))))

/-- The rows of the select, `order by t.recid`. -/
def proxyconfigSelect (rows : CString → List DbRow) (proxyHostid : ℕ) (pt : Proxytable) : List DbRow :=
  ((rows pt.table).filter (proxyconfigWhere rows proxyHostid pt)).mergeSort fun r r' => r.recid ≤ r'.recid

/-! ## the document -/

/-- The text of an identifier, as the database gives it. -/
def recidText (recid : ℕ) : CString :=
  ⟨dec recid, fun h => absurd (digit_of_mem_dec h).1 (by decide)⟩

/-- The type that a value is sent with. -/
def proxyconfigType (type : ZbxFieldType) : ZbxJsonType :=
  match type with
  | .int | .uint | .id => .int
  | .char | .float | .blob | .text => .string

/-- The calls for a row. -/
def proxyconfigRowOps (table : ZbxTable) (row : DbRow) : List JsonOp :=
  [.addarray none, .addstring none (some (recidText row.recid)) .int] ++
    table.proxied.map (fun f => .addstring none (row.column f.name) (proxyconfigType f.type)) ++ [.close]

/-- `get_proxyconfig_table`, the calls to the builder, for the rows that have been
selected. -/
def getProxyconfigTable (table : ZbxTable) (rows : List DbRow) : List JsonOp :=
  [.addobject (some table.table), .addarray (some (cname "fields")),
    .addstring none (some table.recid) .string] ++
    table.proxied.map (fun f => .addstring none (some f.name) .string) ++
    [.close, .addarray (some (cname "data"))] ++ rows.flatMap (proxyconfigRowOps table) ++ [.close, .close]

/-- The tables in the order in which they are sent. -/
def sentTables (schema : Schema) : List (ZbxTable × Proxytable) :=
  schema.tables.flatMap fun table => (proxytables.filter (·.table = table.table)).map fun pt => (table, pt)

/-- `get_proxyconfig_data` -/
def getProxyconfigData (schema : Schema) (rows : CString → List DbRow) (proxyHostid : ℕ) : List JsonOp :=
  (sentTables schema).flatMap fun x => getProxyconfigTable x.1 (proxyconfigSelect rows proxyHostid x.2)

/-- `send_proxyconfig`: the text that is sent, with what `malloc` leaves in the
buffer. -/
def sendProxyconfig (garbage : Mem) (schema : Schema) (rows : CString → List DbRow) (proxyHostid : ℕ) : List UInt8 :=
  (jsonRun garbage (512 * 1024) (getProxyconfigData schema rows proxyHostid)).text

end Zabbix
