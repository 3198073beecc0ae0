import Zabbix.DbSchema
import Zabbix.Lib.Upsert

/-!
# Zabbix.Nodes.Tables

The tables of the database (`libs/zbxdbhigh/dbschema.c`), with the columns that
hold identifiers: the ones of the primary key, those of the type
`ZBX_TYPE_ID`, those with a related table, and `sysmaps.backgroundid`.  The other
columns are left out of the list.
-/

namespace Zabbix.NodeChange

/-- The names of the tables. -/
inductive TableName
  | slideshows | slides | drules | dchecks | dhosts | dservices | ids | httptest | httpstep
  | httpstepitem | httptestitem | nodes | node_cksum | services_times | alerts | history
  | history_sync | history_uint | history_uint_sync | history_str | history_str_sync | history_log
  | history_text | proxy_history | proxy_dhistory | events | trends | trends_uint | acknowledges
  | auditlog | service_alarms | actions | operations | opconditions | escalations | applications
  | conditions | config | functions | graphs | graphs_items | groups | help_items | hosts
  | hosts_groups | hosts_profiles | hosts_profiles_ext | hosts_templates | housekeeper | images
  | items | items_applications | mappings | media | media_type | profiles | rights | scripts
  | screens | screens_items | services | services_links | sessions | sysmaps_links
  | sysmaps_link_triggers | sysmaps_elements | sysmaps | triggers | trigger_depends | users
  | usrgrp | users_groups | valuemaps
deriving DecidableEq, Repr

/-- The names of the columns of `tables`, of those that say what such a column holds, and
of others that the conversion names. -/
inductive FieldName
  | slideshowid | slideid | screenid | druleid | proxy_hostid | dcheckid | dhostid | dserviceid
  | nodeid | table_name | field_name | nextid | httptestid | applicationid | httpstepid
  | httpstepitemid | itemid | httptestitemid | recordid | timeid | serviceid | alertid | actionid
  | eventid | userid | mediatypeid | id | objectid | clock | acknowledgeid | auditid
  | servicealarmid | operationid | opconditionid | escalationid | triggerid | r_eventid | hostid
  | templateid | conditionid | configid | alert_usrgrpid | functionid | graphid | gitemid | groupid
  | itemtype | key_ | hostgroupid | hosttemplateid | housekeeperid | value | imageid | valuemapid
  | itemappid | mappingid | mediaid | profileid | idx2 | value_id | rightid | scriptid | usrgrpid
  | screenitemid | resourceid | linkid | serviceupid | servicedownid | sessionid | sysmapid
  | selementid1 | selementid2 | linktriggerid | selementid | elementid | iconid_off | iconid_on
  | iconid_unknown | iconid_disabled | backgroundid | triggerdepid | triggerid_down | triggerid_up
  | name | ip | nodetype | elementtype | object | operationtype | resourcetype | conditiontype
  | expression
deriving DecidableEq, Repr

/-- `ZBX_FIELD`; `rel` is the table that the column refers to. -/
structure TableField where
  name : FieldName
  type : ZbxFieldType
  rel : Option TableName
deriving DecidableEq, Repr

/-- `ZBX_TABLE`; `recid` are the columns of the primary key, and `sync` is the flag
`ZBX_SYNC`. -/
structure DbTable where
  table : TableName
  recid : List FieldName
  sync : Bool
  fields : List TableField
deriving DecidableEq, Repr

/-- `tables` -/
def tables : List DbTable :=
  [ ⟨.slideshows, [.slideshowid], true, [⟨.slideshowid, .id, none⟩]⟩,
    ⟨.slides, [.slideid], true, [
      ⟨.slideid, .id, none⟩, ⟨.slideshowid, .id, some .slideshows⟩, ⟨.screenid, .id, some .screens⟩]⟩,
    ⟨.drules, [.druleid], true, [⟨.druleid, .id, none⟩, ⟨.proxy_hostid, .id, some .hosts⟩]⟩,
    ⟨.dchecks, [.dcheckid], true, [⟨.dcheckid, .id, none⟩, ⟨.druleid, .id, some .drules⟩]⟩,
    ⟨.dhosts, [.dhostid], true, [⟨.dhostid, .id, none⟩, ⟨.druleid, .id, some .drules⟩]⟩,
    ⟨.dservices, [.dserviceid], true, [⟨.dserviceid, .id, none⟩, ⟨.dhostid, .id, some .dhosts⟩]⟩,
    ⟨.ids, [.nodeid, .table_name, .field_name], false, [
      ⟨.nodeid, .int, some .nodes⟩, ⟨.table_name, .char, none⟩, ⟨.field_name, .char, none⟩,
      ⟨.nextid, .id, none⟩]⟩,
    ⟨.httptest, [.httptestid], true, [
      ⟨.httptestid, .id, none⟩, ⟨.applicationid, .id, some .applications⟩]⟩,
    ⟨.httpstep, [.httpstepid], true, [⟨.httpstepid, .id, none⟩, ⟨.httptestid, .id, some .httptest⟩]⟩,
    ⟨.httpstepitem, [.httpstepitemid], true, [
      ⟨.httpstepitemid, .id, none⟩, ⟨.httpstepid, .id, some .httpstep⟩, ⟨.itemid, .id, some .items⟩]⟩,
    ⟨.httptestitem, [.httptestitemid], true, [
      ⟨.httptestitemid, .id, none⟩, ⟨.httptestid, .id, some .httptest⟩, ⟨.itemid, .id, some .items⟩]⟩,
    ⟨.nodes, [.nodeid], false, [⟨.nodeid, .int, none⟩]⟩,
    ⟨.node_cksum, [], false, [⟨.nodeid, .int, some .nodes⟩, ⟨.recordid, .id, none⟩]⟩,
    ⟨.services_times, [.timeid], true, [⟨.timeid, .id, none⟩, ⟨.serviceid, .id, some .services⟩]⟩,
    ⟨.alerts, [.alertid], false, [
      ⟨.alertid, .id, none⟩, ⟨.actionid, .id, some .actions⟩, ⟨.eventid, .id, some .events⟩,
      ⟨.userid, .id, some .users⟩, ⟨.mediatypeid, .id, some .media_type⟩]⟩,
    ⟨.history, [], false, [⟨.itemid, .id, some .items⟩]⟩,
    ⟨.history_sync, [.id], false, [
      ⟨.id, .uint, none⟩, ⟨.nodeid, .id, some .nodes⟩, ⟨.itemid, .id, some .items⟩]⟩,
    ⟨.history_uint, [], false, [⟨.itemid, .id, some .items⟩]⟩,
    ⟨.history_uint_sync, [.id], false, [
      ⟨.id, .uint, none⟩, ⟨.nodeid, .id, some .nodes⟩, ⟨.itemid, .id, some .items⟩]⟩,
    ⟨.history_str, [], false, [⟨.itemid, .id, some .items⟩]⟩,
    ⟨.history_str_sync, [.id], false, [
      ⟨.id, .uint, none⟩, ⟨.nodeid, .id, some .nodes⟩, ⟨.itemid, .id, some .items⟩]⟩,
    ⟨.history_log, [.id], false, [⟨.id, .id, none⟩, ⟨.itemid, .id, some .items⟩]⟩,
    ⟨.history_text, [.id], false, [⟨.id, .id, none⟩, ⟨.itemid, .id, some .items⟩]⟩,
    ⟨.proxy_history, [.id], false, [⟨.id, .uint, none⟩, ⟨.itemid, .id, some .items⟩]⟩,
    ⟨.proxy_dhistory, [.id], false, [⟨.id, .uint, none⟩, ⟨.druleid, .id, some .drules⟩]⟩,
    ⟨.events, [.eventid], false, [⟨.eventid, .id, none⟩, ⟨.objectid, .id, none⟩]⟩,
    ⟨.trends, [.itemid, .clock], false, [⟨.itemid, .id, some .items⟩, ⟨.clock, .int, none⟩]⟩,
    ⟨.trends_uint, [.itemid, .clock], false, [⟨.itemid, .id, some .items⟩, ⟨.clock, .int, none⟩]⟩,
    ⟨.acknowledges, [.acknowledgeid], false, [
      ⟨.acknowledgeid, .id, none⟩, ⟨.userid, .id, some .users⟩, ⟨.eventid, .id, some .events⟩]⟩,
    ⟨.auditlog, [.auditid], false, [⟨.auditid, .id, none⟩, ⟨.userid, .id, some .users⟩]⟩,
    ⟨.service_alarms, [.servicealarmid], false, [
      ⟨.servicealarmid, .id, none⟩, ⟨.serviceid, .id, some .services⟩]⟩,
    ⟨.actions, [.actionid], true, [⟨.actionid, .id, none⟩]⟩,
    ⟨.operations, [.operationid], true, [
      ⟨.operationid, .id, none⟩, ⟨.actionid, .id, some .actions⟩, ⟨.objectid, .id, none⟩]⟩,
    ⟨.opconditions, [.opconditionid], true, [
      ⟨.opconditionid, .id, none⟩, ⟨.operationid, .id, some .operations⟩]⟩,
    ⟨.escalations, [.escalationid], false, [
      ⟨.escalationid, .id, none⟩, ⟨.actionid, .id, some .actions⟩, ⟨.triggerid, .id, some .triggers⟩,
      ⟨.eventid, .id, some .events⟩, ⟨.r_eventid, .id, some .events⟩]⟩,
    ⟨.applications, [.applicationid], true, [
      ⟨.applicationid, .id, none⟩, ⟨.hostid, .id, some .hosts⟩, ⟨.templateid, .id, some .applications⟩]⟩,
    ⟨.conditions, [.conditionid], true, [
      ⟨.conditionid, .id, none⟩, ⟨.actionid, .id, some .actions⟩]⟩,
    ⟨.config, [.configid], true, [⟨.configid, .id, none⟩, ⟨.alert_usrgrpid, .id, some .usrgrp⟩]⟩,
    ⟨.functions, [.functionid], true, [
      ⟨.functionid, .id, none⟩, ⟨.itemid, .id, some .items⟩, ⟨.triggerid, .id, some .triggers⟩]⟩,
    ⟨.graphs, [.graphid], true, [⟨.graphid, .id, none⟩, ⟨.templateid, .id, some .graphs⟩]⟩,
    ⟨.graphs_items, [.gitemid], true, [
      ⟨.gitemid, .id, none⟩, ⟨.graphid, .id, some .graphs⟩, ⟨.itemid, .id, some .items⟩]⟩,
    ⟨.groups, [.groupid], true, [⟨.groupid, .id, none⟩]⟩,
    ⟨.help_items, [.itemtype, .key_], false, [⟨.itemtype, .int, none⟩, ⟨.key_, .char, none⟩]⟩,
    ⟨.hosts, [.hostid], true, [⟨.hostid, .id, none⟩, ⟨.proxy_hostid, .id, some .hosts⟩]⟩,
    ⟨.hosts_groups, [.hostgroupid], true, [
      ⟨.hostgroupid, .id, none⟩, ⟨.hostid, .id, some .hosts⟩, ⟨.groupid, .id, some .groups⟩]⟩,
    ⟨.hosts_profiles, [.hostid], true, [⟨.hostid, .id, some .hosts⟩]⟩,
    ⟨.hosts_profiles_ext, [.hostid], true, [⟨.hostid, .id, some .hosts⟩]⟩,
    ⟨.hosts_templates, [.hosttemplateid], true, [
      ⟨.hosttemplateid, .id, none⟩, ⟨.hostid, .id, some .hosts⟩, ⟨.templateid, .id, some .hosts⟩]⟩,
    ⟨.housekeeper, [.housekeeperid], false, [
      ⟨.housekeeperid, .id, none⟩, ⟨.value, .id, some .items⟩]⟩,
    ⟨.images, [.imageid], true, [⟨.imageid, .id, none⟩]⟩,
    ⟨.items, [.itemid], true, [
      ⟨.itemid, .id, none⟩, ⟨.hostid, .id, some .hosts⟩, ⟨.templateid, .id, some .items⟩,
      ⟨.valuemapid, .id, some .valuemaps⟩]⟩,
    ⟨.items_applications, [.itemappid], true, [
      ⟨.itemappid, .id, none⟩, ⟨.applicationid, .id, some .applications⟩, ⟨.itemid, .id, some .items⟩]⟩,
    ⟨.mappings, [.mappingid], true, [⟨.mappingid, .id, none⟩, ⟨.valuemapid, .id, some .valuemaps⟩]⟩,
    ⟨.media, [.mediaid], true, [
      ⟨.mediaid, .id, none⟩, ⟨.userid, .id, some .users⟩, ⟨.mediatypeid, .id, some .media_type⟩]⟩,
    ⟨.media_type, [.mediatypeid], true, [⟨.mediatypeid, .id, none⟩]⟩,
    ⟨.profiles, [.profileid], true, [
      ⟨.profileid, .id, none⟩, ⟨.userid, .id, some .users⟩, ⟨.idx2, .id, none⟩, ⟨.value_id, .id, none⟩]⟩,
    ⟨.rights, [.rightid], true, [
      ⟨.rightid, .id, none⟩, ⟨.groupid, .id, some .usrgrp⟩, ⟨.id, .id, some .groups⟩]⟩,
    ⟨.scripts, [.scriptid], true, [
      ⟨.scriptid, .id, none⟩, ⟨.usrgrpid, .id, some .usrgrp⟩, ⟨.groupid, .id, some .groups⟩]⟩,
    ⟨.screens, [.screenid], true, [⟨.screenid, .id, none⟩]⟩,
    ⟨.screens_items, [.screenitemid], true, [
      ⟨.screenitemid, .id, none⟩, ⟨.screenid, .id, some .screens⟩, ⟨.resourceid, .id, none⟩]⟩,
    ⟨.services, [.serviceid], true, [⟨.serviceid, .id, none⟩, ⟨.triggerid, .id, some .triggers⟩]⟩,
    ⟨.services_links, [.linkid], true, [
      ⟨.linkid, .id, none⟩, ⟨.serviceupid, .id, some .services⟩, ⟨.servicedownid, .id, some .services⟩]⟩,
    ⟨.sessions, [.sessionid], false, [⟨.sessionid, .char, none⟩, ⟨.userid, .id, some .users⟩]⟩,
    ⟨.sysmaps_links, [.linkid], true, [
      ⟨.linkid, .id, none⟩, ⟨.sysmapid, .id, some .sysmaps⟩,
      ⟨.selementid1, .id, some .sysmaps_elements⟩, ⟨.selementid2, .id, some .sysmaps_elements⟩]⟩,
    ⟨.sysmaps_link_triggers, [.linktriggerid], true, [
      ⟨.linktriggerid, .id, none⟩, ⟨.linkid, .id, some .sysmaps_links⟩,
      ⟨.triggerid, .id, some .triggers⟩]⟩,
    ⟨.sysmaps_elements, [.selementid], true, [
      ⟨.selementid, .id, none⟩, ⟨.sysmapid, .id, some .sysmaps⟩, ⟨.elementid, .id, none⟩,
      ⟨.iconid_off, .id, some .images⟩, ⟨.iconid_on, .id, some .images⟩,
      ⟨.iconid_unknown, .id, some .images⟩, ⟨.iconid_disabled, .id, some .images⟩]⟩,
    ⟨.sysmaps, [.sysmapid], true, [⟨.sysmapid, .id, none⟩, ⟨.backgroundid, .uint, none⟩]⟩,
    ⟨.triggers, [.triggerid], true, [⟨.triggerid, .id, none⟩, ⟨.templateid, .id, some .triggers⟩]⟩,
    ⟨.trigger_depends, [.triggerdepid], true, [
      ⟨.triggerdepid, .id, none⟩, ⟨.triggerid_down, .id, some .triggers⟩,
      ⟨.triggerid_up, .id, some .triggers⟩]⟩,
    ⟨.users, [.userid], true, [⟨.userid, .id, none⟩]⟩,
    ⟨.usrgrp, [.usrgrpid], true, [⟨.usrgrpid, .id, none⟩]⟩,
    ⟨.users_groups, [.id], true, [
      ⟨.id, .id, none⟩, ⟨.usrgrpid, .id, some .usrgrp⟩, ⟨.userid, .id, some .users⟩]⟩,
    ⟨.valuemaps, [.valuemapid], true, [⟨.valuemapid, .id, none⟩]⟩ ]

/-- `DBget_table` -/
def getTable (name : TableName) : Option DbTable := tables.find? (·.table = name)

theorem getTable_mem {name : TableName} {t : DbTable} (h : getTable name = some t) :
    t ∈ tables ∧ t.table = name :=
  ⟨List.mem_of_find?_eq_some h, by simpa using List.find?_some h⟩

/-- The columns of a table, none for a table that is not there. -/
def fieldsOf (name : TableName) : List TableField := ((getTable name).map (·.fields)).getD []

/-- The primary key of a table. -/
def recidOf (name : TableName) : List FieldName := ((getTable name).map (·.recid)).getD []

/-- Whether a table is synchronised between nodes. -/
def syncOf (name : TableName) : Bool := ((getTable name).map (·.sync)).getD false

/-- No table is there twice. -/
theorem tables_nodup : (tables.map (·.table)).Nodup := by decide

/-- Every table is there. -/
theorem getTable_isSome (name : TableName) : (getTable name).isSome := by
  cases name <;> decide

/-- No table has two columns of one name. -/
theorem fields_nodup : ∀ t ∈ tables, (t.fields.map (·.name)).Nodup := by decide

theorem getTable_of_mem {t : DbTable} (h : t ∈ tables) : getTable t.table = some t :=
  Upsert.find?_of_nodup tables_nodup h

end Zabbix.NodeChange
