import Zabbix.Proxyconfig.Database

/-!
# Zabbix.Proxyconfig.Tables

The tables that are transferred, as `libs/zbxdbhigh/dbschema.c` has them, in its order.
-/

namespace Zabbix

/-- `drules` in `tables` -/
def drulesTable : ZbxTable where
  table := cname "drules"
  recid := cname "druleid"
  sync := true
  fields := [
    ⟨cname "druleid", .id, true, false, false⟩, ⟨cname "proxy_hostid", .id, true, true, false⟩,
    ⟨cname "name", .char, true, true, false⟩, ⟨cname "iprange", .char, true, true, true⟩,
    ⟨cname "delay", .int, true, true, true⟩, ⟨cname "nextcheck", .int, true, true, false⟩,
    ⟨cname "status", .int, true, true, true⟩]

/-- `dchecks` in `tables` -/
def dchecksTable : ZbxTable where
  table := cname "dchecks"
  recid := cname "dcheckid"
  sync := true
  fields := [
    ⟨cname "dcheckid", .id, true, false, false⟩, ⟨cname "druleid", .id, true, true, true⟩,
    ⟨cname "type", .int, true, true, true⟩, ⟨cname "key_", .char, true, true, true⟩,
    ⟨cname "snmp_community", .char, true, true, true⟩, ⟨cname "ports", .char, true, true, true⟩]

/-- `hosts` in `tables` -/
def hostsTable : ZbxTable where
  table := cname "hosts"
  recid := cname "hostid"
  sync := true
  fields := [
    ⟨cname "hostid", .id, true, false, false⟩, ⟨cname "proxy_hostid", .id, true, true, false⟩,
    ⟨cname "host", .char, true, true, true⟩, ⟨cname "dns", .char, true, true, true⟩,
    ⟨cname "useip", .int, true, true, true⟩, ⟨cname "ip", .char, true, true, true⟩,
    ⟨cname "port", .int, true, true, true⟩, ⟨cname "status", .int, true, true, true⟩,
    ⟨cname "disable_until", .int, true, false, false⟩, ⟨cname "error", .char, true, true, false⟩,
    ⟨cname "available", .int, true, true, false⟩, ⟨cname "errors_from", .int, true, false, false⟩,
    ⟨cname "lastaccess", .int, true, true, false⟩, ⟨cname "inbytes", .uint, true, true, false⟩,
    ⟨cname "outbytes", .uint, true, true, false⟩, ⟨cname "useipmi", .int, true, true, true⟩,
    ⟨cname "ipmi_port", .int, true, true, true⟩, ⟨cname "ipmi_authtype", .int, true, true, true⟩,
    ⟨cname "ipmi_privilege", .int, true, true, true⟩, ⟨cname "ipmi_username", .char, true, true, true⟩,
    ⟨cname "ipmi_password", .char, true, true, true⟩, ⟨cname "ipmi_disable_until", .int, true, false, false⟩,
    ⟨cname "ipmi_available", .int, true, true, false⟩, ⟨cname "snmp_disable_until", .int, true, false, false⟩,
    ⟨cname "snmp_available", .int, true, true, false⟩]

/-- `items` in `tables` -/
def itemsTable : ZbxTable where
  table := cname "items"
  recid := cname "itemid"
  sync := true
  fields := [
    ⟨cname "itemid", .id, true, false, false⟩, ⟨cname "type", .int, true, true, true⟩,
    ⟨cname "snmp_community", .char, true, true, true⟩, ⟨cname "snmp_oid", .char, true, true, true⟩,
    ⟨cname "snmp_port", .int, true, true, true⟩, ⟨cname "hostid", .id, true, true, true⟩,
    ⟨cname "description", .char, true, true, false⟩, ⟨cname "key_", .char, true, true, true⟩,
    ⟨cname "delay", .int, true, true, true⟩, ⟨cname "history", .int, true, true, false⟩,
    ⟨cname "trends", .int, true, true, false⟩, ⟨cname "nextcheck", .int, true, false, false⟩,
    ⟨cname "lastvalue", .char, false, false, false⟩, ⟨cname "lastclock", .int, false, false, false⟩,
    ⟨cname "prevvalue", .char, false, false, false⟩, ⟨cname "status", .int, true, true, true⟩,
    ⟨cname "value_type", .int, true, true, true⟩, ⟨cname "trapper_hosts", .char, true, true, true⟩,
    ⟨cname "units", .char, true, true, true⟩, ⟨cname "multiplier", .int, true, true, true⟩,
    ⟨cname "delta", .int, true, true, true⟩, ⟨cname "prevorgvalue", .char, false, false, false⟩,
    ⟨cname "snmpv3_securityname", .char, true, true, true⟩, ⟨cname "snmpv3_securitylevel", .int, true, true, true⟩,
    ⟨cname "snmpv3_authpassphrase", .char, true, true, true⟩,
    ⟨cname "snmpv3_privpassphrase", .char, true, true, true⟩, ⟨cname "formula", .char, true, true, true⟩,
    ⟨cname "error", .char, true, true, false⟩, ⟨cname "lastlogsize", .int, true, false, false⟩,
    ⟨cname "logtimefmt", .char, true, true, true⟩, ⟨cname "templateid", .id, true, true, true⟩,
    ⟨cname "valuemapid", .id, true, true, true⟩, ⟨cname "delay_flex", .char, true, true, true⟩,
    ⟨cname "params", .text, true, true, true⟩, ⟨cname "ipmi_sensor", .char, true, true, true⟩]


/-- The tables that are transferred to a proxy. -/
def proxySchema : ProxySchema where
  tables := [drulesTable, dchecksTable, hostsTable, itemsTable]
  table_name := by decide
  field_name := by decide
  tables_nodup := by decide
  transferable := by
    have hall : ∀ t ∈ [drulesTable, dchecksTable, hostsTable, itemsTable],
        (∃ f ∈ t.fields, f.name = t.recid) ∧ (∀ f ∈ t.proxied, f.name ≠ t.recid) ∧
          (t.fields.map (·.name)).Nodup ∧ t.proxied ≠ [] ∧ IsPlain t.table ∧ ∀ f ∈ t.fields, IsPlain f.name := by
      decide
    intro t ht _
    obtain ⟨hrecid, hnot, hnodup, hne, hplain⟩ := hall t ht
    exact ⟨hrecid, hnot, hnodup, hne, hplain⟩

end Zabbix
