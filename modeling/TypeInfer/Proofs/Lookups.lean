/-
Accounting for names. A lookup is put on record by its site, in one table if the name was found and
in another if it was not. So the errors at the end are one for each site at which all lookups
failed (`unresolved_names_are_accounted_for`).
-/
import TypeInfer.Proofs.NodeSpans
import TypeInfer.Proofs.Recount
import TypeInfer.Proofs.Unused

namespace TypeInfer

open List

/-! ### Lookups at a site -/

/-- The result of a lookup at the site. -/
def Event.foundAt? (site : Span) : Event → Option Bool
  | .lookup site' _ found => if site'.same site then some found else none
  | _ => none

/-- The results of the lookups at a site, in order. -/
def lookupsAt (history : List Event) (site : Span) : List Bool := history.filterMap (Event.foundAt? site)

def Event.site? : Event → Option Span
  | .lookup site _ _ => some site
  | _ => none

/-- The places at which names were looked up. -/
def lookupPlaces (history : List Event) : Finset Place :=
  ((history.filterMap Event.site?).map Span.place).toFinset

variable {history : List Event} {s : Analysis}

theorem mem_lookupsAt_cons {event site found} :
    found ∈ lookupsAt (event :: history) site ↔ event.foundAt? site = some found ∨ found ∈ lookupsAt history site := by
  simp [lookupsAt]

theorem mem_lookupsAt {site : Span} {found : Bool} :
    found ∈ lookupsAt history site ↔ ∃ site' name, .lookup site' name found ∈ history ∧ site'.same site := by
  simp only [lookupsAt, mem_filterMap]
  constructor
  · rintro ⟨event, hevent, hfound⟩
    cases event with
    | lookup site' name found' =>
      simp only [Event.foundAt?, Option.ite_none_right_eq_some, Option.some.injEq] at hfound
      obtain ⟨hsame, rfl⟩ := hfound
      exact ⟨site', name, hevent, hsame⟩
    | _ => cases hfound
  · rintro ⟨site', name, hevent, hsame⟩
    exact ⟨_, hevent, if_pos hsame⟩

theorem mem_lookupPlaces {p : Place} :
    p ∈ lookupPlaces history ↔ ∃ site name found, .lookup site name found ∈ history ∧ site.place = p := by
  simp only [lookupPlaces, mem_toFinset, mem_map, mem_filterMap]
  constructor
  · rintro ⟨site, ⟨event, hevent, hsite⟩, hp⟩
    cases event with
    | lookup site' name found =>
      obtain rfl := Option.some.inj hsite
      exact ⟨site', name, found, hevent, hp⟩
    | _ => cases hsite
  · rintro ⟨site, name, found, hevent, hp⟩
    exact ⟨site, ⟨_, hevent, rfl⟩, hp⟩

/-! ### The tables of names -/

theorem mem_record (event : Event) (site : Span) :
    (site ∈ (event.record s).resolved ↔ site ∈ s.resolved ∨ event.foundAt? site = some true) ∧
      (site ∈ (event.record s).unresolved ↔ site ∈ s.unresolved ∨ event.foundAt? site = some false) := by
  cases event with
  | lookup site' name found =>
    cases found with
    | true =>
      refine ⟨?_, by simp [Event.record, Analysis.addResolved, Event.foundAt?]⟩
      rw [Event.record, Analysis.addResolved, Std.TreeSet.mem_insert, Span.compare_eq_iff, or_comm]
      simp [Event.foundAt?]
    | false =>
      refine ⟨by simp [Event.record, Analysis.addUnresolved, Event.foundAt?], ?_⟩
      have hkey : compare (s.unresolved.getKeyD site' site') site = compare site' site :=
        Std.TransCmp.congr_left (Ordered.compare_getKeyD s.unresolved site')
      rw [Event.record, Analysis.addUnresolved, Ordered.update, Std.TreeMap.mem_insert, hkey, Span.compare_eq_iff, or_comm]
      simp [Event.foundAt?]
  | report d =>
    obtain ⟨problems, heq⟩ := s.report_eq d
    simp [Event.record, heq, Event.foundAt?]
  | _ => simp [Event.record, Event.foundAt?]

theorem mem_records (site : Span) :
    (site ∈ (history.foldl Event.record s).resolved ↔ site ∈ s.resolved ∨ true ∈ lookupsAt history site) ∧
      (site ∈ (history.foldl Event.record s).unresolved ↔ site ∈ s.unresolved ∨ false ∈ lookupsAt history site) := by
  induction history generalizing s with
  | nil => simp [lookupsAt]
  | cons event history ih =>
    have hrecord := mem_record (s := s) event site
    rw [foldl_cons, ih.1, ih.2, hrecord.1, hrecord.2, mem_lookupsAt_cons, mem_lookupsAt_cons, or_assoc, or_assoc]
    exact ⟨.rfl, .rfl⟩

/-- A failed lookup at the site, and one of this name at the same place. -/
structure MissedIn (history : List Event) (entry : Span × String) : Prop where
  site : ∃ name, .lookup entry.1 name false ∈ history
  name : ∃ site : Span, .lookup site entry.2 false ∈ history ∧ site.same entry.1

theorem MissedIn.append {entry} (h : MissedIn history entry) (more : List Event) :
    MissedIn (history ++ more) entry := by
  obtain ⟨⟨name, hname⟩, site, hsite, hsame⟩ := h
  exact ⟨⟨name, mem_append_left _ hname⟩, site, mem_append_left _ hsite, hsame⟩

theorem missed_record {before} (h : ∀ entry ∈ s.unresolved.toList, MissedIn before entry)
    (event : Event) :
    ∀ entry ∈ (event.record s).unresolved.toList, MissedIn (before ++ [event]) entry := by
  have hold : ∀ entry ∈ s.unresolved.toList, MissedIn (before ++ [event]) entry := fun entry he => (h entry he).append _
  cases event with
  | lookup site name found =>
    cases found with
    | true => exact hold
    | false =>
      intro entry he
      have hevent : Event.lookup site name false ∈ before ++ [.lookup site name false] := by simp
      rcases Ordered.mem_toList_update he with rfl | he
      · have hsame := Span.compare_eq_iff.1 (Std.OrientedCmp.eq_symm (Ordered.compare_getKeyD s.unresolved site))
        refine ⟨?_, site, hevent, hsame⟩
        -- the site keeps the spelling of an earlier lookup, if there was one
        rcases Ordered.getKeyD_cases s.unresolved site with hnew | ⟨old, hkey⟩
        · exact ⟨name, hnew.symm ▸ hevent⟩
        · exact (hold _ hkey).site
      · exact hold entry he
  | report d =>
    obtain ⟨problems, heq⟩ := s.report_eq d
    rw [Event.record, heq]
    exact hold
  | _ => exact hold

theorem missed_records {before} (h : ∀ entry ∈ s.unresolved.toList, MissedIn before entry) :
    ∀ entry ∈ (history.foldl Event.record s).unresolved.toList, MissedIn (before ++ history) entry := by
  induction history generalizing s before with
  | nil => simpa using h
  | cons event history ih => simpa using ih (missed_record h event)

/-- The tables of names are as the lookups of the history make them. -/
structure Tallies (history : List Event) (s : Analysis) : Prop where
  resolved : ∀ site, site ∈ s.resolved ↔ true ∈ lookupsAt history site
  unresolved : ∀ site, site ∈ s.unresolved ↔ false ∈ lookupsAt history site
  missed : ∀ entry ∈ s.unresolved.toList, MissedIn history entry

theorem History.tallies {t : Analysis} (h : History [] history s t) (hresolved : s.resolved = ∅) (hunresolved : s.unresolved = ∅) :
    Tallies history t := by
  have hrecords := h.records s (.refl s)
  constructor
  case resolved =>
    intro site
    rw [← hrecords.resolved, (mem_records site).1, hresolved]
    simp
  case unresolved =>
    intro site
    rw [← hrecords.unresolved, (mem_records site).2, hunresolved]
    simp
  case missed =>
    have hnone : s.unresolved.toList = [] := by rw [hunresolved]; rfl
    rw [← hrecords.unresolved, ← nil_append history]
    exact missed_records (by simp [hnone])

/-! ### Counting sites -/

namespace Analysis

theorem nodup_unresolvedSites (s : Analysis) : (s.unresolvedSites.map (·.1.place)).Nodup := by
  rw [List.Nodup, pairwise_map]
  refine (s.unresolved.distinct_keys_toList.filter _).imp fun hdistinct hplace => hdistinct ?_
  exact Span.compare_eq_iff.2 (Span.same_iff.2 hplace)

theorem nodup_resolved (s : Analysis) : (s.resolved.toList.map Span.place).Nodup := by
  rw [List.Nodup, pairwise_map]
  refine s.resolved.distinct_toList.imp fun hdistinct hplace => hdistinct ?_
  exact Span.compare_eq_iff.2 (Span.same_iff.2 hplace)

theorem mem_unresolvedSites {s : Analysis} {site : Span} :
    site.place ∈ s.unresolvedSites.map (·.1.place) ↔ site ∈ s.unresolved ∧ site ∉ s.resolved := by
  have hsame : ∀ {k : Span}, k.place = site.place ↔ compare k site = .eq := fun {k} =>
    Span.same_iff.symm.trans Span.compare_eq_iff.symm
  simp only [unresolvedSites, mem_map, mem_filter, Bool.not_eq_true', ← Bool.not_eq_true,
    Std.TreeSet.contains_iff_mem, hsame]
  constructor
  · rintro ⟨⟨k, name⟩, ⟨hentry, hresolved⟩, hk⟩
    have hname := Std.TreeMap.getElem?_eq_some_iff_exists_compare_eq_eq_and_mem_toList.2
      ⟨k, Std.OrientedCmp.eq_symm hk, hentry⟩
    refine ⟨?_, fun hmem => hresolved ((Std.TreeSet.mem_congr hk).2 hmem)⟩
    rw [Std.TreeMap.mem_iff_isSome_getElem?, hname]
    rfl
  · rintro ⟨hmem, hresolved⟩
    obtain ⟨k, hk, hentry⟩ := Std.TreeMap.getElem?_eq_some_iff_exists_compare_eq_eq_and_mem_toList.1
      (Std.TreeMap.getElem?_eq_some_getElem hmem)
    exact ⟨_, ⟨hentry, fun hk' => hresolved ((Std.TreeSet.mem_congr hk).2 hk')⟩, Std.OrientedCmp.eq_symm hk⟩

theorem mem_resolvedPlaces {s : Analysis} {site : Span} :
    site.place ∈ s.resolved.toList.map Span.place ↔ site ∈ s.resolved := by
  rw [mem_map]
  constructor
  · rintro ⟨k, hk, hplace⟩
    exact (Std.TreeSet.mem_congr (Span.compare_eq_iff.2 (Span.same_iff.2 hplace))).1 (Std.TreeSet.mem_of_mem_toList hk)
  · intro hmem
    let _ : BEq Span := ⟨fun a b => compare a b == .eq⟩
    have : Std.LawfulBEqCmp (compare : Span → Span → Ordering) := ⟨fun {a b} => (beq_iff_eq (a := compare a b)).symm⟩
    have hlisted : s.resolved.toList.contains site := Std.TreeSet.contains_toList.trans hmem
    obtain ⟨k, hk, hsame⟩ := contains_iff_exists_mem_beq.1 hlisted
    exact ⟨k, hk, (Span.same_iff.1 (Span.compare_eq_iff.1 (beq_iff_eq.1 hsame))).symm⟩

theorem card_lookupPlaces (h : Tallies history s) : s.resolved.size + s.unresolvedSites.length = (lookupPlaces history).card := by
  let places := s.resolved.toList.map Span.place ++ s.unresolvedSites.map (·.1.place)
  have hnodup : places.Nodup := by
    refine nodup_append'.2 ⟨s.nodup_resolved, s.nodup_unresolvedSites, fun p hp hp' => ?_⟩
    obtain ⟨site, -, rfl⟩ := mem_map.1 hp
    exact (mem_unresolvedSites.1 hp').2 (mem_resolvedPlaces.1 hp)
  have hsites : ∀ site : Span, site.place ∈ places ↔ lookupsAt history site ≠ [] := by
    intro site
    rw [mem_append, mem_resolvedPlaces, mem_unresolvedSites, h.resolved, h.unresolved]
    rcases lookupsAt history site with _ | ⟨found, _⟩
    · simp
    · cases found <;> simp [em]
  have hplaces : lookupPlaces history = places.toFinset := by
    ext p
    rw [mem_lookupPlaces, mem_toFinset]
    constructor
    · rintro ⟨site, name, found, hevent, rfl⟩
      have hat : found ∈ lookupsAt history site := mem_lookupsAt.2 ⟨site, name, hevent, Span.same_iff.2 rfl⟩
      exact (hsites site).2 (ne_nil_of_mem hat)
    · intro hp
      have hplace : ∃ site : Span, site.place = p := by
        rcases mem_append.1 hp with hp | hp
        · exact (mem_map.1 hp).imp fun _ h => h.2
        · obtain ⟨entry, -, hplace⟩ := mem_map.1 hp
          exact ⟨entry.1, hplace⟩
      obtain ⟨site, rfl⟩ := hplace
      obtain ⟨found, hfound⟩ := exists_mem_of_ne_nil _ ((hsites site).1 hp)
      obtain ⟨site', name, hevent, hsame⟩ := mem_lookupsAt.1 hfound
      exact ⟨site', name, found, hevent, Span.same_iff.1 hsame⟩
  rw [hplaces, toFinset_card_of_nodup hnodup]
  simp [places]

/-! ### Reports -/

/-- No name is reported before the analysis ends. -/
theorem none_unresolved {code : Code} {t : Analysis} (h : Work code s t)
    (hs : s.AllFound fun d => d.code ≠ Diagnostic.Code.unresolvedName) :
    t.AllFound fun d => d.code ≠ Diagnostic.Code.unresolvedName := by
  refine hs.work (fun d hearly _ hcode => ?_) (fun d hfile hcode => ?_) h
  · rw [hcode] at hearly
    revert hearly
    decide
  · rcases hfile with hfault | hunreadable
    · rw [Diagnostic.IsFault, hcode] at hfault
      revert hfault
      decide
    · rw [hunreadable] at hcode
      revert hcode
      decide

theorem perm_unresolvedErrors (hs : s.AllFound fun d => d.code ≠ Diagnostic.Code.unresolvedName) :
    (s.concluded.diagnostics.filter (·.code == Diagnostic.Code.unresolvedName)).Perm
      ((s.unresolvedSites.map unresolvedError).filter (!·.span.isSynthetic)) := by
  obtain ⟨problems, stats, heq⟩ := s.concluded_eq
  have hfailures : s.concluded.failuresByFile = s.failuresByFile := by rw [heq]; rfl
  have hnone : s.diagnostics.filter (·.code == Diagnostic.Code.unresolvedName) = [] :=
    filter_eq_nil_iff.2 fun d hd => by simpa using hs.diagnostics d hd
  rw [diagnostics_eq, filter_append, append_eq_nil_iff] at hnone
  have hwarnings : (if s.config.reportUnused then s.unusedSites.map unusedWarning else []).filter
      (·.code == Diagnostic.Code.unresolvedName) = [] := by
    split
    · rw [filter_map]
      simp [Function.comp_def, unusedWarning, Diagnostic.warning, Diagnostic.Code.unusedVariable,
        Diagnostic.Code.unresolvedName]
    · rfl
  have herrors : ((s.unresolvedSites.map unresolvedError).filter (!·.span.isSynthetic)).filter
      (·.code == Diagnostic.Code.unresolvedName) = (s.unresolvedSites.map unresolvedError).filter (!·.span.isSynthetic) := by
    refine filter_eq_self.2 fun d hd => ?_
    obtain ⟨entry, -, rfl⟩ := mem_map.1 (mem_filter.1 hd).1
    exact beq_self_eq_true _
  rw [diagnostics_eq, hfailures, filter_append, hnone.1, nil_append]
  refine (s.perm_found_concluded.filter _).trans ?_
  rw [filter_append, filter_append, hwarnings, herrors, hnone.2, nil_append, append_nil]

end Analysis

/-! ### Code outside the library -/

/-- The code of files that do not belong to the library. -/
def Code.own : Code where
  Has n := ∀ m ∈ n.tree, ∀ span ∈ m.span?, span.isSynthetic = false
  child hn hc m hm := hn m (Node.mem_tree.2 (.inr ⟨_, hc, hm⟩))

theorem hasBlock_own_of_parse {source m} (h : parse source = .ok m)
    (hown : source.path.text.startsWith Span.libraryRoot = false) : Code.own.HasBlock m.body := by
  obtain ⟨-, ⟨tokens, -, -, hspans⟩, -⟩ := node_spans_of_parse h
  intro st hst n hn span hspan
  obtain ⟨first, -, last, -, -, heq, -⟩ := hspans st hst n hn span hspan
  rw [heq]
  exact hown

theorem supplies_holds (code : Code) : Supplies (Workspace.Holds code) fun _ tree => code.HasBlock tree.body where
  journal h := { h with }
  after {_ p} h hsource := (h.treeOf p (.inl hsource)).1
  tree {_ p tree} h hsource htree := (h.treeOf p (.inl hsource)).2 tree htree

/-- The library has no absolute paths. -/
theorem Path.not_library_of_isAbsolute {p : Path} (h : p.isAbsolute) : p.text.startsWith Span.libraryRoot = false := by
  rw [← Bool.not_eq_true]
  intro hlibrary
  obtain ⟨rest, hrest⟩ := String.startsWith_string_iff.1 hlibrary
  rw [isAbsolute, ← hrest] at h
  simp [Span.libraryRoot] at h

/-- Outside the library no name of the library is looked up. -/
theorem own_lookups {work : Workspace} {config : Config} {t : Analysis} (hstart : Analysis.start work config = .ok s)
    (hfiles : ∀ p, work.files.fileExists (work.files.fullPath p) →
      (work.files.fullPath p).text.startsWith Span.libraryRoot = false)
    (hcache : config.diskCache = false ∨ ∀ path content text tree, s.work.entryText? (fileKey path content) = some text →
      Module.ofText? text = some tree → Code.own.HasBlock tree.body)
    (h : History [] history s t) {site : Span} {name : String} {found : Bool} (hevent : .lookup site name found ∈ history) :
    site.isSynthetic = false := by
  obtain ⟨w, heq, hentries, hdir, hw⟩ := Analysis.start_cases hstart
  rw [heq, Analysis.work_fresh] at hcache
  have hfull : ∀ p, w.files.fullPath p = work.files.fullPath p ∧ w.files.file? p = work.files.file? p := by
    rcases hw with hsame | hmade
    · simp [hsame]
    · rw [FileTree.makeDirs_eq_addDirs hmade]
      exact fun _ => ⟨rfl, rfl⟩
  have hholds : w.Holds Code.own := by
    refine ⟨by simp [hentries], fun path content text m there reads => ?_, fun p text m _ hfile hparse => ?_⟩
    · rcases hcache with hoff | hstored
      · simp [Workspace.entryText?, TreeCache.entryPath?, hdir hoff] at there
      · exact hstored path content text m there reads
    · rw [(hfull _).2, (hfull _).1] at hfile
      rw [(hfull _).1] at hparse
      exact hasBlock_own_of_parse hparse (hfiles p (by simp [FileTree.fileExists, hfile]))
  have hclosed : s.Closed Code.own := by
    rw [heq]
    exact Analysis.closed_fresh config hholds
  have hsupplied : s.Supplied (Workspace.Holds Code.own) Code.own := ⟨hclosed.work, hclosed.sited.toDefinedIn⟩
  obtain ⟨-, hblocks⟩ := h.supplied (supplies_holds Code.own) (fun b _ => .of_all (fun _ _ => id) b) hsupplied Mark.allIn_nil
  have hmark : Mark.read site name ∈ (entered history).flatMap Block.marks :=
    h.perm_marks.mem_iff.1 (mem_filterMap.2 ⟨_, hevent, rfl⟩)
  obtain ⟨b, hb, hmark⟩ := mem_flatMap.1 hmark
  exact (hblocks b hb).marks (.of_all (fun _ _ => id) b) _ hmark _ (Node.mem_tree_self _) site rfl

/-- A name that is there at the second call of a function only, and one that is never there. -/
def Workspace.laterDefined : Workspace where
  files := ({} : FileTree).addFile ⟨"/p/main.py"⟩ "def f(a):\n    return g\nf(1)\ng = 2\nf(\"s\")\nmissing\n"

end TypeInfer
