import Zabbix.Discovery.Discoverer
import Zabbix.Json.RoundTrip

/-!
# Zabbix.Discovery.Proxy

Network discovery through a proxy (`zabbix_server/trapper/proxydiscovery.c`, and
the part of `zabbix_server/discoverer/discoverer.c` that a proxy runs).

A proxy records what each check comes to, and behind the checks of an address what
the host comes to.  The records are sent as they are stored, and the server replays
them one after the other, without anything that it remembers from one to the next.

Of the message it is the texts that matter: what is read of one into a buffer is
`receivedText`.
-/

namespace Zabbix

/-! ## what a proxy records -/

/-- A row of `proxy_dhistory`. -/
structure DhistoryRow where
  clock : ℤ
  druleid : ℕ
  type : ℤ
  ip : StoredText dhostIpLen
  port : ℤ
  key_ : StoredText dserviceKeyLen
  value : StoredText dserviceValueLen
  status : ℤ
deriving DecidableEq

/-- `proxy_update_service` -/
def proxyUpdateService (check : DbDcheck) (ip : CString) (port now : ℤ) : DhistoryRow where
  clock := now
  druleid := check.druleid
  type := check.type
  ip := storedText dhostIpLen ip
  port := port
  key_ := storedText dserviceKeyLen check.key_
  value := storedText dserviceValueLen check.value
  status := check.status

/-- `proxy_update_host`; the columns `port`, `key_` and `value` have their defaults. -/
def proxyUpdateHost (druleid : ℕ) (ip : CString) (status now : ℤ) : DhistoryRow where
  clock := now
  druleid := druleid
  type := -1
  ip := storedText dhostIpLen ip
  port := 0
  key_ := zeroText
  value := zeroText
  status := status

/-- The round of the loop of `process_rule`, on a proxy. -/
def recordAddress (visit : AddressVisit) : List DhistoryRow :=
  visit.checks.map (fun r => proxyUpdateService (r.check visit.druleid) visit.ip.text r.port r.now) ++
    [proxyUpdateHost visit.druleid visit.ip.text (visit.checks.foldl nextHostStatus (-1)) visit.now]

/-- A result on a clock that is ahead. -/
def CheckResult.shift (ahead : ℤ) (r : CheckResult) : CheckResult := { r with now := r.now + ahead }

/-- The results for an address on a clock that is ahead. -/
def AddressVisit.shift (ahead : ℤ) (visit : AddressVisit) : AddressVisit :=
  { visit with now := visit.now + ahead, checks := visit.checks.map (CheckResult.shift ahead) }

/-! ## what the server replays -/

/-- What a buffer of `len` bytes gets of a text in a message. -/
def receivedText (len : ℕ) (s : CString) : CString := bufferString ((decoded s.val).take (roomOf len))

/-- `zbx_json_decodevalue` reads it. -/
theorem zbxJsonDecodevalue_receivedText (s : CString) (t : Ptr) (len : ℕ) :
    (zbxJsonDecodevalue (jsonInsstring (some s) .string ++ t) len).map (fun r => bufferString r.1) =
      .found (receivedText len s) := by
  obtain ⟨q, hq⟩ := decodestringLoop_take s.val (roomOf len) t
  rw [zbxJsonDecodevalue_string, hq, Scan.map_found]
  rfl

/-- A message, and the server's clock when it comes in. -/
structure DiscoveryMessage where
  now : ℤ
  hosttime : ℤ
  rows : List DhistoryRow
deriving DecidableEq

variable {schema : Schema} (configNodeid : ℤ) (ch cs : Column schema)

/-- The check of a record. -/
def receivedCheck (row : DhistoryRow) : DbDcheck where
  druleid := row.druleid
  type := row.type
  key_ := receivedText (dserviceKeyLen + 1) row.key_.text
  status := row.status
  value := receivedText (dserviceValueLen + 1) row.value.text

/-- The round of the loop of `process_discovery_data`. -/
def processDiscoveryRecord (now hosttime : ℤ) (s : Discovery) (row : DhistoryRow) : Option Discovery :=
  let itemtime := now - (hosttime - row.clock)
  let ip := receivedText (dhostIpLen + 1) row.ip.text
  let dcheck := receivedCheck row
  if dcheck.type = -1 then
    (registerHost configNodeid ch s (DbDhost.fresh dcheck.druleid) ip dcheck.status).map fun (s, dhost) =>
      updateHostStatus s dhost dcheck.status itemtime
  else
    (updateService configNodeid ch cs s (DbDhost.fresh dcheck.druleid) dcheck ip row.port itemtime).map Prod.fst

/-- `process_discovery_data` -/
def processDiscoveryData (s : Discovery) (message : DiscoveryMessage) : Option Discovery :=
  message.rows.foldlM (processDiscoveryRecord configNodeid ch cs message.now message.hosttime) s

end Zabbix
