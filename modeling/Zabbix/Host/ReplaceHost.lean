import Zabbix.Host.UpdateTrigger
import Zabbix.Host.ImplodeExplode

/-!
# Zabbix.Host.ReplaceHost

A trigger expression on another host (`string_replace` of `{host:` in `DBupdate_trigger` of `libs/zbxdbhigh/host.c`).

* `replaceHost_render` — the host is replaced reference by reference;
* `normal_replaceHost` — calls stay calls;
* `host_eq_of_exploded` — what is imploded and exploded again is on the host that has been put in.
-/

namespace Zabbix.Host

open Ascii Printf References

/-! ## another host in an expression -/

/-- The call is on the host. -/
def OnHost (host : List UInt8) : Symbol → Prop
  | .text _ => False
  | .reference name => host ++ [colon] <+: name

instance (host : List UInt8) : DecidablePred (OnHost host) := fun a =>
  match a with
  | .text _ => inferInstanceAs (Decidable False)
  | .reference name => inferInstanceAs (Decidable (host ++ [colon] <+: name))

/-- The names of references after the replacement of a host. -/
def rehost (host host' name : List UInt8) : List UInt8 :=
  if host ++ [colon] <+: name then host' ++ name.drop host.length else name

variable {host host' : List UInt8}

theorem replaceHost_render (hhost : References.Plain host) {ss : List Symbol} (hss : ∀ a ∈ ss, a.IsPlain) :
    replaceHost host host' (render ss) = render (ss.map (Symbol.rename (rehost host host'))) := by
  induction ss with
  | nil => exact stringReplace_nil _ _ _
  | cons a ss ih =>
      obtain ⟨ha, hrest⟩ := List.forall_mem_cons.mp hss
      rw [render_cons, List.map_cons, render_cons, ← ih hrest]
      cases a with
      | text a => exact stringReplace_cons _ fun hstart => ha (List.cons_prefix_cons.mp hstart).1.symm
      | reference name =>
          rw [Symbol.rename, rehost, Symbol.render, Symbol.render, braced, List.cons_append, List.append_assoc,
            List.singleton_append]
          split
          · next hstart =>
            obtain ⟨rest, rfl⟩ := hstart
            have hrest : lbrace ∉ rest := fun hmem => ha.1 (List.mem_append_right _ hmem)
            have hfound : replaceHost host host' (lbrace :: ((host ++ [colon]) ++ rest ++ rbrace :: render ss)) =
                lbrace :: (host' ++ [colon]) ++ replaceHost host host' (rest ++ rbrace :: render ss) := by
              rw [List.append_assoc, ← List.cons_append]
              exact stringReplace_append _ _ _ _
            have hskip : replaceHost host host' (rest ++ rbrace :: render ss) =
                rest ++ rbrace :: replaceHost host host' (render ss) := by
              have hclose : lbrace ∉ rest ++ [rbrace] := by simp [hrest, show lbrace ≠ rbrace by decide]
              have hnone := stringReplace_of_not_mem (host ++ [colon]) (lbrace :: (host' ++ [colon])) hclose (render ss)
              rwa [List.append_assoc, List.append_assoc] at hnone
            rw [hfound, hskip, braced, List.append_assoc host, List.drop_left]
            simp
          · next hstart =>
            have hopen : ¬lbrace :: (host ++ [colon]) <+: lbrace :: (name ++ rbrace :: render ss) := by
              intro hp
              have hp := (List.cons_prefix_cons.mp hp).2
              by_cases hlen : (host ++ [colon]).length ≤ name.length
              · exact hstart (List.prefix_of_prefix_length_le hp (List.prefix_append _ _) hlen)
              · have hclosed : name ++ [rbrace] <+: name ++ rbrace :: render ss := ⟨render ss, by simp⟩
                have hmem : rbrace ∈ host ++ [colon] := by
                  refine (List.prefix_of_prefix_length_le hclosed hp ?_).subset (by simp)
                  rw [List.length_append, List.length_singleton]
                  omega
                rcases List.mem_append.mp hmem with hmem | hmem
                · exact hhost.2 hmem
                · exact absurd (List.mem_singleton.mp hmem) (by decide)
            have hclose : lbrace ∉ name ++ [rbrace] := by simp [ha.1, show lbrace ≠ rbrace by decide]
            have hskip := stringReplace_of_not_mem (host ++ [colon]) (lbrace :: (host' ++ [colon])) hclose (render ss)
            rw [List.append_assoc, List.singleton_append] at hskip
            rw [replaceHost, stringReplace_cons _ hopen, hskip, braced]
            simp
            rfl

/-! ## expressions in the normal mode on another host -/

variable {db : HostDb}

/-- A name that can stand for a host in a call. -/
structure HostName (host : List UInt8) : Prop where
  plain : References.Plain host
  colon : colon ∉ host

theorem hostName_dec (n : ℕ) : HostName (dec n) :=
  ⟨plain_dec n, fun h => absurd (digit_of_mem_dec h).2 (by decide)⟩

theorem onHost_iff {a : Symbol} : OnHost host a ↔ ∃ rest, a = .reference (host ++ colon :: rest) := by
  cases a with
  | text a => simp [OnHost]
  | reference name =>
      rw [OnHost]
      constructor
      · rintro ⟨rest, rfl⟩
        exact ⟨rest, by rw [List.append_assoc, List.singleton_append]⟩
      · rintro ⟨rest, hname⟩
        exact ⟨rest, by rw [Symbol.reference.inj hname, List.append_assoc, List.singleton_append]⟩

theorem rehost_append (host host' rest : List UInt8) :
    rehost host host' (host ++ colon :: rest) = host' ++ colon :: rest := by
  rw [rehost, if_pos ⟨rest, by rw [List.append_assoc, List.singleton_append]⟩, List.drop_left]

/-- A name is on the host and comes to be on the other one, or stays. -/
theorem rehost_cases (host host' name : List UInt8) :
    (∃ rest, name = host ++ colon :: rest ∧ rehost host host' name = host' ++ colon :: rest) ∨
      rehost host host' name = name := by
  by_cases hstart : host ++ [colon] <+: name
  · obtain ⟨rest, rfl⟩ := hstart
    rw [List.append_assoc, List.singleton_append]
    exact .inl ⟨rest, rfl, rehost_append host host' rest⟩
  · exact .inr (if_neg hstart)

theorem plain_rehost (hhost' : References.Plain host') {name : List UInt8} (hname : References.Plain name) :
    References.Plain (rehost host host' name) := by
  rcases rehost_cases host host' name with ⟨rest, rfl, heq⟩ | heq
  · rw [heq]
    constructor
    · intro hmem
      rcases List.mem_append.mp hmem with hmem | hmem
      · exact hhost'.1 hmem
      · exact hname.1 (List.mem_append_right _ hmem)
    · intro hmem
      rcases List.mem_append.mp hmem with hmem | hmem
      · exact hhost'.2 hmem
      · exact hname.2 (List.mem_append_right _ hmem)
  · rwa [heq]

/-- The symbols of an expression on another host. -/
theorem read_replaceHost (hhost : References.Plain host) (hhost' : References.Plain host') {e : List UInt8}
    (he : Normal e) : read (replaceHost host host' e) = (read e).map (Symbol.rename (rehost host host')) := by
  have hrender := @replaceHost_render host host' hhost _ he.isPlain
  rw [render_read] at hrender
  rw [hrender, read_render (regular_of_isPlain ?_)]
  intro b hb
  obtain ⟨a, ha, rfl⟩ := List.mem_map.mp hb
  have hplain := he.isPlain a ha
  cases a with
  | text a => exact hplain
  | reference name => exact plain_rehost hhost' hplain

theorem cutCall_host (hhost : colon ∉ host) {rest : List UInt8} {parts : CallParts}
    (h : cutCall (host ++ colon :: rest) = some parts) : parts.host = host := by
  rw [cutCall, strchr_append_cons hhost] at h
  dsimp only at h
  split at h
  · cases h
  · split at h
    · cases h
    · split at h
      · cases h
      · obtain ⟨-, heq⟩ := Option.ite_none_right_eq_some.mp h
        obtain rfl := Option.some.inj heq
        rfl

/-- A call is one on another host as well. -/
theorem isSome_cutCall_host (hhost : colon ∉ host) (hhost' : host' ≠ [] ∧ colon ∉ host') {rest : List UInt8}
    (h : (cutCall (host ++ colon :: rest)).isSome) : (cutCall (host' ++ colon :: rest)).isSome := by
  rw [cutCall, strchr_append_cons hhost] at h
  rw [cutCall, strchr_append_cons hhost'.2]
  dsimp only at h ⊢
  split at h
  · cases h
  · split at h
    · cases h
    · split at h
      · cases h
      · next key function hdot =>
        split at h
        · next hne => rw [if_pos (⟨hhost'.1, hne.2⟩ : host' ≠ [] ∧ _), Option.isSome_some]
        · cases h

theorem host_ne_triggerValue (host rest : List UInt8) : host ++ colon :: rest ≠ triggerValue := by
  intro heq
  have hcolon : colon ∈ triggerValue := heq ▸ List.mem_append_right _ List.mem_cons_self
  exact absurd hcolon (by decide)

theorem normal_replaceHost (hhost : HostName host) (hhost' : HostName host') (hne : host' ≠ []) (hnul : 0 ∉ host')
    {e : List UInt8} (he : Normal e) : Normal (replaceHost host host' e) := by
  intro b hb
  rw [read_replaceHost hhost.plain hhost'.plain he] at hb
  obtain ⟨a, ha, rfl⟩ := List.mem_map.mp hb
  have hnormal := he a ha
  cases a with
  | text a => exact hnormal
  | reference name =>
      rw [Symbol.rename]
      rcases rehost_cases host host' name with ⟨rest, rfl, heq⟩ | heq
      · rw [heq]
        have hcall := hnormal.2.resolve_left (host_ne_triggerValue host rest)
        refine ⟨fun hmem => ?_, .inr (isSome_cutCall_host hhost.colon ⟨hne, hhost'.colon⟩ hcall)⟩
        rcases List.mem_append.mp hmem with hmem | hmem
        · exact hnul hmem
        · exact hnormal.1 (List.mem_append_right _ hmem)
      · rwa [heq]

/-- A call that stays as a call on a host was one on that host. -/
theorem host_eq_of_stays (hhost : colon ∉ host ∧ cr ∉ host) (hhost' : colon ∉ host') {rest : List UInt8}
    (h : db.stays (.reference (host ++ colon :: rest)) = some (.reference (host' ++ colon :: rest))) :
    host = host' := by
  rw [HostDb.stays, if_neg (host_ne_triggerValue host rest), Option.map_eq_some_iff] at h
  obtain ⟨call, hcall, hstored⟩ := h
  obtain ⟨parts, hparts, hitem⟩ := Option.bind_eq_some_iff.mp hcall
  obtain ⟨itemid, -, rfl⟩ := Option.map_eq_some_iff.mp hitem
  have htext : storedCall parts = host' ++ colon :: rest := Symbol.reference.inj hstored
  rw [storedCall, cutCall_host hhost.1 hparts, kept_of_not_mem hhost.2, callText] at htext
  have hcut := congrArg (strchr colon) htext
  rw [strchr_append_cons hhost.1, strchr_append_cons hhost'] at hcut
  exact (Prod.mk.inj (Option.some.inj hcut)).1

/-- What an expression on a host comes to is on another one only if the two are the same. -/
theorem host_eq_of_exploded {host'' e : List UInt8} (hhost : HostName host) (hhost' : HostName host')
    (hcr : cr ∉ host') (hhost'' : HostName host'') (he : Normal e) (he' : Normal (replaceHost host host' e))
    (hcall : ∃ a ∈ read e, OnHost host a) {k : ℕ}
    (h : render (((read (replaceHost host host' e)).filterMap db.stays).take k) = replaceHost host host'' e) :
    host' = host'' := by
  have hread := congrArg read h
  rw [read_render (regular_of_isPlain ?_), read_replaceHost hhost.plain hhost''.plain he] at hread
  · obtain ⟨hstays, -⟩ := eq_of_filterMap_take hread (by
      rw [read_replaceHost hhost.plain hhost'.plain he, List.length_map, List.length_map])
    rw [read_replaceHost hhost.plain hhost'.plain he, List.map_map, List.map_map] at hstays
    obtain ⟨a, ha, hon⟩ := hcall
    obtain ⟨rest, rfl⟩ := onHost_iff.mp hon
    have hcalled := List.map_inj_left.mp hstays _ ha
    simp only [Function.comp_apply, Symbol.rename, rehost_append] at hcalled
    exact host_eq_of_stays ⟨hhost'.colon, hcr⟩ hhost''.colon hcalled
  · intro b hb
    obtain ⟨a, ha, hab⟩ := List.mem_filterMap.mp (List.mem_of_mem_take hb)
    exact isPlain_of_stays (he'.isPlain a ha) hab

end Zabbix.Host
