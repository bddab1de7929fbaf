import MigangBot.Feedback
import MigangBot.Lib.OrderedMaps
import MigangBot.Registrar
import MigangBot.WeiboPush
import Mathlib.Data.List.Lex

namespace MigangBot.ServiceListing

open Lib.Exceptions Lib.Multimaps Lib.OrderedMaps Text JsonValue ApiTypes ApiCalls Permission Services ServiceStatus
  ServiceManagement RestartEquivalence EventHandling BotManagement Feedback
open WeiboPush (image)

/-- A std::string as a key: its bytes are compared without their sign. -/
structure Name where
  text : Bytes
  deriving DecidableEq

theorem Name.numbers_injective : Function.Injective fun name : Name => name.text.map UInt8.toNat := by
  intro name name' h
  cases name
  cases name'
  exact congrArg Name.mk (List.map_injective_iff.mpr (fun _ _ => UInt8.toNat_inj.mp) h)

instance : LinearOrder Name := LinearOrder.lift' (fun name => name.text.map UInt8.toNat) Name.numbers_injective

/-- What a call of the registrar says of a service. -/
structure Entry where
  registration : ServiceManagement.Registration
  description : Bytes
  bundle : Bytes

/-- The manager with both its maps, which share the services: a pointer is the
place of a service in the order of the registrations. -/
structure Catalogue where
  manager : ServiceManager
  descriptions : List Bytes
  serviceNameMap : Multimap Name ServicePtr
  bundleServiceMap : OrderedMap Name (Multimap Name ServicePtr)

structure Row where
  name : Bytes
  description : Bytes
  status : Option Bool
  deriving DecidableEq

namespace Catalogue

def empty : Catalogue := ⟨⟨[]⟩, [], .empty, .empty⟩

/-- The service is made just before it is registered. -/
def registerService (st : Catalogue × Disk) (e : Entry) : Outcome (Catalogue × Disk) := do
  let service := st.1.manager.serviceNameMap.length
  let name : Name := ⟨e.registration.serviceName⟩
  let (manager, disk) ← registerNew (st.1.manager, st.2) e.registration
  let inBundle := (st.1.bundleServiceMap.lookup ⟨e.bundle⟩).getD .empty
  return (⟨manager, st.1.descriptions ++ [e.description], st.1.serviceNameMap.emplace name service,
    st.1.bundleServiceMap.assign ⟨e.bundle⟩ (inBundle.emplace name service)⟩, disk)

def registerEach (entries : List Entry) (disk : Disk) : Outcome (Catalogue × Disk) :=
  entries.foldlM registerService (empty, disk)

variable (c : Catalogue)

def description (service : ServicePtr) : Bytes := (c.descriptions[service]?).getD []

def status (service : ServicePtr) (g : GId) : Bool := (c.manager.serviceNameMap[service]?).elim false (·.groupStatus g)

/-- The rows of one map; they have a status where they are made for a group. -/
def rows (services : Multimap Name ServicePtr) (group : Option GId) : List Row :=
  services.entries.map fun e => ⟨e.1.text, c.description e.2, group.map (c.status e.2)⟩

def getServiceList (group : Option GId) : List Row := c.rows c.serviceNameMap group

def getBundleService (bundleName : Bytes) (group : Option GId) : List Row :=
  match c.bundleServiceMap.lookup ⟨bundleName⟩ with
  | some services => c.rows services group
  | none => []

def getBundleList : List Bytes := c.bundleServiceMap.keys.map Name.text

def checkBundle (bundleName : Bytes) : Bool := c.bundleServiceMap.contains ⟨bundleName⟩

end Catalogue

section Handlers

def visible (name : Bytes) : Bool := name ≠ [] ∧ name.head? ≠ some (char '_')

def line (row : Row) : Bytes :=
  row.status.elim [] (fun status => bytes "[" ++ ((if status then bytes "✓" else bytes "×") ++ bytes "] ")) ++
    (row.name ++ (bytes ": " ++ if row.description = [] then bytes "无简介" else row.description))

/-- The last two characters are dropped, whatever they are. -/
def page (header : Bytes) (rows : List Row) : Bytes :=
  (header ++ (rows.filter fun row => visible row.name).flatMap fun row => line row ++ bytes "\n\n").dropLast.dropLast

def groupOfEvent (event : Object) : Outcome (Option GId) := do
  if event.contains "group_id" then return some (← (← event.constIndex "group_id").getUInt64)
  else return none

variable (textToImg : Bytes → Bytes) (c : Catalogue) (event : Object)

def servicesHeader (group : Option GId) : Bytes :=
  if group.isSome then bytes "以下为可用服务列表以及本群启用情况\n=====================\n"
  else bytes "以下为可用服务列表\n=====================\n"

def handleListSv : Outcome Json := do
  let group ← groupOfEvent event
  send event (image (textToImg (page (servicesHeader group) (c.getServiceList group)))) false

def bundlesHeader : Bytes := bytes "以下为所有可用包\n=====================\n"

def bundlesFooter : Bytes := bytes "发送[lsb 包名]来查看包内的服务列表"

def bundleLine (bundle : Bytes) : Bytes := bytes "[" ++ (bundle ++ bytes "]\n")

def bundlesPage (bundles : List Bytes) : Bytes := bundlesHeader ++ (bundles.flatMap bundleLine ++ bundlesFooter)

def missingBundle (option : Bytes) : Bytes :=
  bytes "不存在名为[" ++ (option ++ bytes "]的服务包，请发送[lsb]查看可用包列表")

def bundleHeader (option : Bytes) : Bytes :=
  bytes "以下为包[" ++ (option ++ bytes "]中可用服务以及启用情况\n=====================\n")

def handleListSvBundle : Outcome Json := do
  let option ← optionOf event
  if option = [] then
    let bundles := c.getBundleList.filter fun bundle => (c.getBundleService bundle none).any fun row => visible row.name
    send event (image (textToImg (bundlesPage bundles))) false
  else if c.checkBundle option then
    let group ← groupOfEvent event
    send event (image (textToImg (page (bundleHeader option) (c.getBundleService option group)))) false
  else send event (missingBundle option) false

end Handlers

section Pages

/-- The lines below the header, with a blank line between two. Without any, the
header loses its end. -/
def sheet (header : Bytes) : List Row → Bytes
  | [] => header.dropLast.dropLast
  | row :: rows => header ++ (line row ++ rows.flatMap fun row => bytes "\n\n" ++ line row)

theorem dropLast_blank (s : Bytes) : (s ++ bytes "\n\n").dropLast.dropLast = s := by
  have hblank : bytes "\n\n" = [10] ++ [10] := by decide
  rw [hblank, ← List.append_assoc, List.dropLast_concat, List.dropLast_concat]

theorem flatMap_line (row : Row) (rows : List Row) :
    ((row :: rows).flatMap fun row => line row ++ bytes "\n\n") =
      line row ++ (rows.flatMap fun row => bytes "\n\n" ++ line row) ++ bytes "\n\n" := by
  induction rows generalizing row with
  | nil => simp only [List.flatMap_cons, List.flatMap_nil, List.append_nil]
  | cons row' rows ih =>
      rw [List.flatMap_cons, ih, List.flatMap_cons]
      simp only [List.append_assoc]

theorem page_eq (header : Bytes) (rows : List Row) :
    page header rows = sheet header (rows.filter fun row => visible row.name) := by
  rw [page]
  cases rows.filter fun row => visible row.name with
  | nil => rw [List.flatMap_nil, List.append_nil, sheet]
  | cons row rows => rw [flatMap_line, ← List.append_assoc, dropLast_blank, sheet]

end Pages

section Index

def nameAt (entries : List Entry) (service : ServicePtr) : Name :=
  ⟨(entries[service]?).elim [] fun e => e.registration.serviceName⟩

def inBundle (entries : List Entry) (bundle : Name) (service : ServicePtr) : Bool :=
  (entries[service]?).any fun e => Name.mk e.bundle = bundle

/-- By name, and those of one name as they were registered. -/
def Before (entries : List Entry) (p q : ServicePtr) : Prop :=
  nameAt entries p < nameAt entries q ∨ nameAt entries p = nameAt entries q ∧ p < q

/-- The two maps after some registrations: each bundle has the part of the one map
that was registered under it. -/
structure Indexed (entries : List Entry) (c : Catalogue) : Prop where
  length : c.manager.serviceNameMap.length = entries.length
  descriptions : c.descriptions = entries.map Entry.description
  names : ∀ e ∈ c.serviceNameMap.entries, e.1 = nameAt entries e.2
  places : (c.serviceNameMap.entries.map Prod.snd).Perm (List.range entries.length)
  ordered : (c.serviceNameMap.entries.map Prod.snd).Pairwise (Before entries)
  bundles : ∀ bundle, c.bundleServiceMap.lookup bundle =
    if ∃ e ∈ entries, Name.mk e.bundle = bundle then some (select c.serviceNameMap (inBundle entries bundle)) else none

variable {entries : List Entry} {c : Catalogue} {e : Entry} {p : ServicePtr}

theorem indexed_empty : Indexed [] Catalogue.empty where
  length := rfl
  descriptions := rfl
  names _ he := by cases he
  places := .refl _
  ordered := .nil
  bundles _ := rfl

theorem nameAt_snoc (h : p < entries.length) : nameAt (entries ++ [e]) p = nameAt entries p := by
  rw [nameAt, nameAt, List.getElem?_append_left h]

theorem nameAt_length : nameAt (entries ++ [e]) entries.length = ⟨e.registration.serviceName⟩ := by
  rw [nameAt, List.getElem?_concat_length]
  rfl

theorem inBundle_snoc (h : p < entries.length) (bundle : Name) :
    inBundle (entries ++ [e]) bundle p = inBundle entries bundle p := by
  rw [inBundle, inBundle, List.getElem?_append_left h]

theorem inBundle_length (bundle : Name) :
    inBundle (entries ++ [e]) bundle entries.length = decide (Name.mk e.bundle = bundle) := by
  rw [inBundle, List.getElem?_concat_length]
  rfl

theorem Indexed.lt (h : Indexed entries c) {n : Name × ServicePtr} (hn : n ∈ c.serviceNameMap.entries) :
    n.2 < entries.length :=
  List.mem_range.mp (h.places.mem_iff.mp (List.mem_map_of_mem hn))

theorem Indexed.select_snoc (h : Indexed entries c) (bundle : Name) :
    select c.serviceNameMap (inBundle (entries ++ [e]) bundle) = select c.serviceNameMap (inBundle entries bundle) := by
  apply eq_of_entries
  rw [entries_select, entries_select]
  exact List.filter_congr fun n hn => inBundle_snoc (h.lt hn) bundle

/-- A bundle under which nothing was registered has nothing, whether it is there or not. -/
theorem Indexed.getD_lookup (h : Indexed entries c) (bundle : Name) :
    (c.bundleServiceMap.lookup bundle).getD .empty = select c.serviceNameMap (inBundle entries bundle) := by
  rw [h.bundles]
  split
  next => rfl
  next hnone =>
    apply eq_of_entries
    rw [entries_select, eq_comm, Option.getD_none]
    refine List.filter_eq_nil_iff.mpr fun n hn hin => hnone ?_
    rw [inBundle, Option.any_eq_true] at hin
    obtain ⟨e, he, hbundle⟩ := hin
    exact ⟨e, List.mem_of_getElem? he, of_decide_eq_true hbundle⟩

theorem before_snoc {q : ServicePtr} (hp : p < entries.length) (hq : q < entries.length) :
    Before (entries ++ [e]) p q ↔ Before entries p q := by
  rw [Before, Before, nameAt_snoc hp, nameAt_snoc hq]

/-- The new service goes behind those of its name. -/
theorem Indexed.ordered_emplace (h : Indexed entries c) :
    ((c.serviceNameMap.emplace ⟨e.registration.serviceName⟩ entries.length).entries.map Prod.snd).Pairwise
      (Before (entries ++ [e])) := by
  have hold : c.serviceNameMap.entries.Pairwise fun m n => Before (entries ++ [e]) m.2 n.2 :=
    (List.pairwise_map.mp h.ordered).imp_of_mem fun hm hn hb => (before_snoc (h.lt hm) (h.lt hn)).mpr hb
  rw [← c.serviceNameMap.upTo_append_beyond ⟨e.registration.serviceName⟩, List.pairwise_append] at hold
  rw [List.pairwise_map, entries_emplace, List.pairwise_append, List.pairwise_cons]
  refine ⟨hold.1, ⟨fun n hn => .inl ?_, hold.2.1⟩, fun m hm n hn => ?_⟩
  · have hmem := List.dropWhile_subset _ hn
    rw [nameAt_length, nameAt_snoc (h.lt hmem), ← h.names n hmem]
    exact Multimap.lt_of_mem_beyond hn
  · rcases List.mem_cons.mp hn with rfl | hn
    · obtain ⟨hmem, hle⟩ := Multimap.mem_upTo.mp hm
      rw [Before, nameAt_length, nameAt_snoc (h.lt hmem), ← h.names m hmem]
      rcases hle.lt_or_eq with hlt | heq
      · exact .inl hlt
      · exact .inr ⟨heq, h.lt hmem⟩
    · exact hold.2.2 m hm n hn

theorem Indexed.bundles_assign (h : Indexed entries c) (bundle : Name) :
    (c.bundleServiceMap.assign ⟨e.bundle⟩ (((c.bundleServiceMap.lookup ⟨e.bundle⟩).getD .empty).emplace
        ⟨e.registration.serviceName⟩ entries.length)).lookup bundle =
      if ∃ e' ∈ entries ++ [e], Name.mk e'.bundle = bundle then
        some (select (c.serviceNameMap.emplace ⟨e.registration.serviceName⟩ entries.length)
          (inBundle (entries ++ [e]) bundle))
      else none := by
  rw [OrderedMap.lookup_assign, h.getD_lookup, select_emplace, inBundle_length, h.select_snoc, h.bundles]
  simp only [List.mem_append, List.mem_singleton, or_and_right, exists_or, exists_eq_left]
  by_cases hb : bundle = ⟨e.bundle⟩
  · rw [if_pos hb, if_pos (.inr hb.symm), if_pos (decide_eq_true hb.symm), hb]
  · have hb' : ¬ Name.mk e.bundle = bundle := fun heq => hb heq.symm
    simp only [if_neg hb, hb', or_false, decide_false, Bool.false_eq_true, if_false]

theorem Indexed.registerService {disk disk' : Disk} {c' : Catalogue} (h : Indexed entries c)
    (hr : Catalogue.registerService (c, disk) e = .ok (c', disk')) : Indexed (entries ++ [e]) c' := by
  simp only [Catalogue.registerService, bind_eq_ok] at hr
  obtain ⟨⟨manager, d⟩, hnew, hr⟩ := hr
  cases hr
  have hlength : manager.serviceNameMap.length = entries.length + 1 := by
    simp only [registerNew, bind_eq_ok] at hnew
    obtain ⟨⟨s, d'⟩, _, hadded⟩ := hnew
    cases hadded
    rw [ServiceManager.registerService, List.length_append, h.length]
    rfl
  rw [h.length]
  constructor
  · rw [hlength, List.length_append]
    rfl
  · simp only [h.descriptions, List.map_append, List.map_cons, List.map_nil]
  · intro n hn
    rcases Multimap.mem_emplace.mp hn with rfl | hn
    · exact nameAt_length.symm
    · rw [nameAt_snoc (h.lt hn)]
      exact h.names n hn
  · rw [List.length_append, List.length_singleton, List.range_succ]
    refine ((c.serviceNameMap.emplace_perm _ _).map Prod.snd).trans ?_
    exact (h.places.cons entries.length).trans (List.perm_append_singleton _ _).symm
  · exact h.ordered_emplace
  · exact h.bundles_assign

/-- The maps hold pointers, so that they do not change with the services. -/
theorem Indexed.withManager (h : Indexed entries c) {services : List Service}
    (hlength : services.length = c.manager.serviceNameMap.length) : Indexed entries { c with manager := ⟨services⟩ } :=
  { h with length := hlength.trans h.length }

theorem indexed_registerEach {rest : List Entry} {disk disk' : Disk} {c' : Catalogue} (h : Indexed entries c)
    (hr : rest.foldlM Catalogue.registerService (c, disk) = .ok (c', disk')) : Indexed (entries ++ rest) c' := by
  induction rest generalizing entries c disk with
  | nil =>
      cases hr
      rwa [List.append_nil]
  | cons e rest ih =>
      rw [List.foldlM_cons, bind_eq_ok] at hr
      obtain ⟨⟨c₁, disk₁⟩, hfirst, hr⟩ := hr
      have hrest := ih (h.registerService hfirst) hr
      rwa [List.append_assoc] at hrest

/-- The range of the map for a name: what was registered under it, in that order. -/
theorem Indexed.equal_range (h : Indexed entries c) (name : Name) :
    (c.serviceNameMap.entries.filter fun n => n.1 = name).map Prod.snd =
      (List.range entries.length).filter fun p => nameAt entries p = name := by
  have hleft : (c.serviceNameMap.entries.filter fun n => n.1 = name).map Prod.snd =
      (c.serviceNameMap.entries.map Prod.snd).filter fun p => nameAt entries p = name := by
    rw [List.filter_map]
    refine congrArg (List.map Prod.snd) (List.filter_congr fun n hn => ?_)
    rw [Function.comp_apply, h.names n hn]
  have hpairwise : ((c.serviceNameMap.entries.map Prod.snd).filter fun p => nameAt entries p = name).Pairwise (· < ·) := by
    refine (h.ordered.filter _).imp_of_mem ?_
    intro p q hp hq hb
    have hp' : nameAt entries p = name := of_decide_eq_true (List.mem_filter.mp hp).2
    have hq' : nameAt entries q = name := of_decide_eq_true (List.mem_filter.mp hq).2
    rcases hb with hlt | ⟨_, hlt⟩
    · rw [hp', hq'] at hlt
      exact absurd hlt (lt_irrefl name)
    · exact hlt
  rw [hleft]
  exact List.Perm.eq_of_pairwise (fun p q _ _ hpq hqp => absurd (hpq.trans hqp) (lt_irrefl p)) hpairwise
    (List.pairwise_lt_range.filter _) (h.places.filter _)

theorem filterMap_range {α : Type} (l : List α) : (List.range l.length).filterMap (l[·]?) = l := by
  induction l using List.reverseRecOn with
  | nil => rfl
  | append_singleton l a ih =>
      rw [List.length_append, List.length_singleton, List.range_succ, List.filterMap_append, List.filterMap_cons,
        List.getElem?_concat_length, List.filterMap_nil]
      have hinit : (List.range l.length).filterMap ((l ++ [a])[·]?) = (List.range l.length).filterMap (l[·]?) :=
        List.filterMap_congr fun p hp => List.getElem?_append_left (List.mem_range.mp hp)
      rw [hinit, ih]

theorem Indexed.equalRange (h : Indexed entries c) (name : Bytes) (hnames : ∀ p : ServicePtr, ∀ s,
    c.manager.serviceNameMap[p]? = some s → nameAt entries p = ⟨s.serviceName⟩) :
    c.manager.equalRange name = ((c.serviceNameMap.entries.filter fun n => n.1 = ⟨name⟩).map Prod.snd).filterMap
      (c.manager.serviceNameMap[·]?) := by
  rw [h.equal_range, ← h.length, List.filterMap_filter, ServiceManager.equalRange]
  conv_lhs => rw [← filterMap_range c.manager.serviceNameMap, List.filter_filterMap]
  refine List.filterMap_congr fun p _ => ?_
  cases hs : c.manager.serviceNameMap[p]? with
  | none => exact (ite_self _).symm
  | some s =>
      rw [hnames p s hs]
      by_cases hname : s.serviceName = name
      · simp [hname]
      · simp [hname]

theorem registerAll_of_registerEach {rest : List Entry} {disk disk' : Disk} {c' : Catalogue}
    (hr : rest.foldlM Catalogue.registerService (c, disk) = .ok (c', disk')) :
    (rest.map Entry.registration).foldlM registerNew (c.manager, disk) = .ok (c'.manager, disk') := by
  induction rest generalizing c disk with
  | nil =>
      cases hr
      rfl
  | cons e rest ih =>
      rw [List.foldlM_cons, bind_eq_ok] at hr
      obtain ⟨⟨c₁, disk₁⟩, hfirst, hr⟩ := hr
      simp only [Catalogue.registerService, bind_eq_ok] at hfirst
      obtain ⟨⟨manager, d⟩, hnew, hfirst⟩ := hfirst
      cases hfirst
      rw [List.map_cons, List.foldlM_cons, hnew]
      exact ih hr

end Index

section Listing

/-- The services in the order in which they are listed. -/
structure InOrder (entries : List Entry) (places : List ServicePtr) : Prop where
  all : places.Perm (List.range entries.length)
  ordered : places.Pairwise (Before entries)

/-- The bundles in which something is visible, in their order. -/
structure Shown (entries : List Entry) (bundles : List Bytes) : Prop where
  mem : ∀ bundle, bundle ∈ bundles ↔ ∃ e ∈ entries, e.bundle = bundle ∧ visible e.registration.serviceName = true
  ordered : (bundles.map Name.mk).Pairwise (· < ·)

def shows (entries : List Entry) (p : ServicePtr) : Bool := visible (nameAt entries p).text

def rowOf (entries : List Entry) (status : ServicePtr → GId → Bool) (group : Option GId) (p : ServicePtr) : Row :=
  ⟨(nameAt entries p).text, (entries[p]?).elim [] Entry.description, group.map (status p)⟩

/-- What the two commands answer, by the registrations and the status of each service
in each group. -/
structure Truthful (textToImg : Bytes → Bytes) (c : Catalogue) (entries : List Entry)
    (status : ServicePtr → GId → Bool) (places : List ServicePtr) (bundles : List Bytes) : Prop where
  services : ∀ event group, Answerable event → groupOfEvent event = .ok group →
    handleListSv textToImg c event = .ok (answerOf event (image (textToImg (sheet (servicesHeader group)
      ((places.filter (shows entries)).map (rowOf entries status group))))) false)
  bundles : ∀ event, Answerable event → optionOf event = .ok [] →
    handleListSvBundle textToImg c event = .ok (answerOf event (image (textToImg (bundlesPage bundles))) false)
  bundle : ∀ event group option, Answerable event → groupOfEvent event = .ok group → optionOf event = .ok option →
    option ≠ [] → handleListSvBundle textToImg c event = .ok (answerOf event
      (if ∃ e ∈ entries, e.bundle = option then image (textToImg (sheet (bundleHeader option)
        ((places.filter fun p => shows entries p && inBundle entries ⟨option⟩ p).map (rowOf entries status group))))
      else missingBundle option) false)

variable {textToImg : Bytes → Bytes} {entries : List Entry} {c : Catalogue} {status : ServicePtr → GId → Bool}

def placesOf (c : Catalogue) : List ServicePtr := c.serviceNameMap.entries.map Prod.snd

def shownOf (c : Catalogue) : List Bytes :=
  c.getBundleList.filter fun bundle => (c.getBundleService bundle none).any fun row => visible row.name

theorem Indexed.inOrder (h : Indexed entries c) : InOrder entries (placesOf c) := ⟨h.places, h.ordered⟩

/-- A map whose entries are those of the manager gives its rows in their order. -/
theorem Indexed.rows_select (h : Indexed entries c) (hstatus : ∀ p < entries.length, c.status p = status p)
    (q : ServicePtr → Bool) (group : Option GId) :
    c.rows (select c.serviceNameMap q) group = ((placesOf c).filter q).map (rowOf entries status group) := by
  rw [Catalogue.rows, entries_select, placesOf, List.filter_map, List.map_map]
  apply List.map_congr_left
  intro n hn
  have hmem := List.mem_of_mem_filter hn
  rw [Function.comp_apply, rowOf, ← h.names n hmem, hstatus n.2 (h.lt hmem), Catalogue.description, h.descriptions,
    List.getElem?_map]
  cases entries[n.2]? with
  | none => rfl
  | some e => rfl

theorem getBundleService_eq (c : Catalogue) (bundle : Bytes) (group : Option GId) :
    c.getBundleService bundle group = c.rows ((c.bundleServiceMap.lookup ⟨bundle⟩).getD .empty) group := by
  rw [Catalogue.getBundleService]
  cases c.bundleServiceMap.lookup ⟨bundle⟩ with
  | none => rfl
  | some services => rfl

theorem Indexed.getBundleService (h : Indexed entries c) (hstatus : ∀ p < entries.length, c.status p = status p)
    (bundle : Bytes) (group : Option GId) : c.getBundleService bundle group =
      ((placesOf c).filter (inBundle entries ⟨bundle⟩)).map (rowOf entries status group) := by
  rw [getBundleService_eq, h.getD_lookup, h.rows_select hstatus]

theorem Indexed.getServiceList (h : Indexed entries c) (hstatus : ∀ p < entries.length, c.status p = status p)
    (group : Option GId) : c.getServiceList group = (placesOf c).map (rowOf entries status group) := by
  have hall : select c.serviceNameMap (fun _ => true) = c.serviceNameMap := eq_of_entries (List.filter_true _)
  have hrows := h.rows_select hstatus (fun _ => true) group
  rwa [hall, List.filter_true] at hrows

theorem Indexed.checkBundle (h : Indexed entries c) (bundle : Bytes) :
    c.checkBundle bundle = true ↔ ∃ e ∈ entries, e.bundle = bundle := by
  rw [Catalogue.checkBundle, OrderedMap.contains, h.bundles]
  simp only [Name.mk.injEq]
  split
  next hb => exact iff_of_true rfl hb
  next hb => exact iff_of_false Bool.false_ne_true hb

theorem inBundle_iff {bundle : Bytes} {p : ServicePtr} :
    inBundle entries ⟨bundle⟩ p = true ↔ ∃ e, entries[p]? = some e ∧ e.bundle = bundle := by
  simp only [inBundle, Option.any_eq_true, decide_eq_true_eq, Name.mk.injEq]

theorem Indexed.anyVisible (h : Indexed entries c) (bundle : Bytes) :
    ((c.getBundleService bundle none).any fun row => visible row.name) = true ↔
      ∃ e ∈ entries, e.bundle = bundle ∧ visible e.registration.serviceName = true := by
  rw [h.getBundleService (fun _ _ => rfl), List.any_map, List.any_eq_true]
  constructor
  · rintro ⟨p, hp, hvisible⟩
    obtain ⟨_, hin⟩ := List.mem_filter.mp hp
    obtain ⟨e, he, hbundle⟩ := inBundle_iff.mp hin
    rw [Function.comp_apply, rowOf, nameAt, he] at hvisible
    exact ⟨e, List.mem_of_getElem? he, hbundle, hvisible⟩
  · rintro ⟨e, hmem, hbundle, hvisible⟩
    obtain ⟨p, hp, rfl⟩ := List.mem_iff_getElem.mp hmem
    have he : entries[p]? = some entries[p] := List.getElem?_eq_getElem hp
    refine ⟨p, List.mem_filter.mpr ⟨h.places.mem_iff.mpr (List.mem_range.mpr hp), inBundle_iff.mpr ⟨_, he, hbundle⟩⟩, ?_⟩
    rw [Function.comp_apply, rowOf, nameAt, he]
    exact hvisible

theorem Indexed.shown (h : Indexed entries c) : Shown entries (shownOf c) := by
  constructor
  · intro bundle
    rw [shownOf, List.mem_filter, h.anyVisible]
    constructor
    · exact And.right
    · rintro ⟨e, he, hbundle, hvisible⟩
      have hkey : Name.mk bundle ∈ c.bundleServiceMap.keys :=
        OrderedMap.mem_keys.mpr ((h.checkBundle bundle).mpr ⟨e, he, hbundle⟩)
      exact ⟨List.mem_map.mpr ⟨_, hkey, rfl⟩, e, he, hbundle, hvisible⟩
  · rw [shownOf, Catalogue.getBundleList, List.filter_map, List.map_map]
    refine List.pairwise_map.mpr ?_
    exact c.bundleServiceMap.keys_sorted.filter _

theorem Indexed.truthful (h : Indexed entries c) (hstatus : ∀ p < entries.length, c.status p = status p) :
    Truthful textToImg c entries status (placesOf c) (shownOf c) := by
  constructor
  · intro event group ha hgroup
    rw [handleListSv, hgroup, ok_bind, send_eq ha, h.getServiceList hstatus, page_eq, List.filter_map]
    rfl
  · intro event ha ho
    rw [handleListSvBundle, ho, ok_bind, if_pos rfl, send_eq ha]
    rfl
  · intro event group option ha hgroup ho hne
    rw [handleListSvBundle, ho, ok_bind, if_neg hne]
    split
    next hb =>
      rw [hgroup, ok_bind, send_eq ha, h.getBundleService hstatus, if_pos ((h.checkBundle option).mp hb), page_eq,
        List.filter_map, List.filter_filter]
      rfl
    next hb => rw [send_eq ha, if_neg fun hin => hb ((h.checkBundle option).mpr hin)]

end Listing

section History

variable {entries : List Entry} {c : Catalogue} {disk disk₀ : Disk}

/-- The status of a service in a group after the calls of the manager, by what it was
registered with and by its status at the start. -/
def inForce (c : Catalogue) (entries : List Entry) (rs : List Request) (p : ServicePtr) (g : GId) : Bool :=
  (entries[p]?).elim false fun e =>
    lastEffective e.registration.managePermission (c.status p g) (callsTo e.registration.serviceName rs) g

/-- The manager that keeps its services in one list finds under a name what the map
has there. -/
theorem equalRange_registered (h : Catalogue.registerEach entries disk = .ok (c, disk₀)) (name : Bytes) :
    c.manager.equalRange name = ((c.serviceNameMap.entries.filter fun n => n.1 = ⟨name⟩).map Prod.snd).filterMap
      (c.manager.serviceNameMap[·]?) := by
  have hi : Indexed entries c := indexed_registerEach indexed_empty h
  obtain ⟨_, _, hnames⟩ := Registrar.registered_services (registerAll_of_registerEach h)
  refine hi.equalRange name fun p s hs => ?_
  have hp : p < entries.length := hi.length ▸ (List.getElem?_eq_some_iff.mp hs).1
  have he : entries[p]? = some entries[p] := List.getElem?_eq_getElem hp
  rw [nameAt, he, (hnames p entries[p].registration s (by rw [List.getElem?_map, he]; rfl) hs).1]
  rfl

/-- Whatever was registered and however it was switched on and off since: the lists
name every visible service once for each of its registrations, by name, those of a
bundle in that bundle alone, and mark it by the status that is in force. -/
theorem listed_truthfully (h : Catalogue.registerEach entries disk = .ok (c, disk₀)) (textToImg : Bytes → Bytes)
    (rs : List Request) : ∃ manager disk' places bundles, execAll c.manager disk₀ rs = .ok (manager, disk') ∧
      InOrder entries places ∧ Shown entries bundles ∧
      Truthful textToImg { c with manager := manager } entries (inForce c entries rs) places bundles := by
  have hi : Indexed entries c := indexed_registerEach indexed_empty h
  obtain ⟨_, hwritable, hnames⟩ := Registrar.registered_services (registerAll_of_registerEach h)
  obtain ⟨disk', hexec, _⟩ := execAll_eq c.manager disk₀ hwritable rs
  refine ⟨_, disk', placesOf c, shownOf c, hexec, hi.inOrder, hi.shown, ?_⟩
  refine (hi.withManager (List.length_map _)).truthful fun p hp => ?_
  obtain ⟨s, hs⟩ : ∃ s, c.manager.serviceNameMap[p]? = some s := ⟨_, List.getElem?_eq_getElem (hi.length ▸ hp)⟩
  have he : entries[p]? = some entries[p] := List.getElem?_eq_getElem hp
  obtain ⟨hname, hperm⟩ := hnames p entries[p].registration s (by rw [List.getElem?_map, he]; rfl) hs
  funext g
  simp only [Catalogue.status, inForce, List.getElem?_map, hs, he, Option.map_some, Option.elim_some]
  rw [groupStatus_afterAll, hname, hperm]

def echoEntries : List Entry :=
  [⟨⟨bytes "echo", groupMember, true⟩, [], bytes "通用"⟩,
    ⟨⟨bytes "__lssv__", superuser, true⟩, bytes "列举各类服务列表", bytes "服务管理"⟩]

def listCommand : Object :=
  [("post_type", .string (bytes "message")), ("message_type", .string (bytes "group")), ("sub_type", .string (bytes "normal")),
    ("group_id", .numberUnsigned 5), ("user_id", .numberUnsigned 10001), ("message", .string (bytes "lssv")),
    ("__command_size__", .numberUnsigned 4)]

theorem answerable_listCommand : Answerable listCommand where
  chat := ⟨_, rfl, ⟨_, rfl⟩, by rintro _ ⟨⟩⟩
  user := ⟨_, rfl, rfl, by rintro _ ⟨⟩⟩
  group := fun _ => ⟨_, rfl, rfl, by rintro _ ⟨⟩⟩

theorem listed_truthfully_disabled : ∃ c disk manager disk',
    Catalogue.registerEach echoEntries (fun _ => none) = .ok (c, disk) ∧
    execAll c.manager disk [⟨bytes "echo", false, 5, groupOwner⟩] = .ok (manager, disk') ∧
    handleListSv id { c with manager := manager } listCommand = .ok (answerOf listCommand
      (image (servicesHeader (some 5) ++ bytes "[×] echo: 无简介")) false) := by
  have hregister : Catalogue.registerEach echoEntries (fun _ => none) = .ok _ := rfl
  obtain ⟨manager, disk', places, bundles, hexec, horder, _, htruthful⟩ :=
    listed_truthfully hregister id [⟨bytes "echo", false, 5, groupOwner⟩]
  have hplaces : places.filter (shows echoEntries) = [0] := by
    apply List.perm_singleton.mp
    exact horder.all.filter (shows echoEntries)
  have hlist := htruthful.services listCommand (some 5) answerable_listCommand rfl
  rw [hplaces] at hlist
  exact ⟨_, _, manager, disk', hregister, hexec, hlist⟩

end History

end MigangBot.ServiceListing
