/-
Paths and their components. A name below a path is one more component, also after the path is
resolved. An absolute path, once resolved, is a way from the root (`Path.Trail`): resolving it
again changes nothing, and the directory around it is one step back.
-/
import TypeInfer.Analysis.ModuleName

namespace TypeInfer

open List

namespace Text

variable {sep : Char}

theorem splitOn_append (sep : Char) (a b : List Char) :
    splitOn sep (a ++ sep :: b) = splitOn sep a ++ splitOn sep b := by
  induction a with
  | nil =>
    rw [nil_append, splitOn, splitOn]
    split
    · rename_i h
      exact absurd h (splitOn_ne_nil sep b)
    · rename_i h
      simp [h]
  | cons c a ih =>
    rw [cons_append, splitOn, splitOn, ih]
    cases h : splitOn sep a with
    | nil => exact absurd h (splitOn_ne_nil sep a)
    | cons piece pieces => by_cases hc : c = sep <;> simp [hc]

theorem splitOn_of_not_mem {cs} (h : sep ∉ cs) : splitOn sep cs = [cs] := by
  induction cs with
  | nil => rfl
  | cons c cs ih =>
    simp only [mem_cons, not_or] at h
    simp [splitOn, ih h.2, Ne.symm h.1]

theorem not_mem_of_mem_splitOn {sep : Char} {cs piece : List Char} (h : piece ∈ splitOn sep cs) :
    sep ∉ piece := by
  induction cs generalizing piece with
  | nil =>
    simp only [splitOn, mem_singleton] at h
    simp [h]
  | cons c cs ih =>
    rw [splitOn] at h
    split at h
    · rename_i hnil
      exact absurd hnil (splitOn_ne_nil sep cs)
    · rename_i first pieces hsplit
      rw [hsplit] at ih
      split at h
      · rcases mem_cons.1 h with rfl | h
        · simp
        · exact ih h
      · rename_i hc
        rcases mem_cons.1 h with rfl | h
        · simpa [Ne.symm hc] using ih mem_cons_self
        · exact ih (mem_cons_of_mem _ h)

end Text

namespace Path

variable {n : String} {done : List Component} {p q : Path} (xs : List Component) (name : String)
  (dir : Path)

/-- A segment that is a name. -/
def IsName (n : String) : Prop := '/' ∉ n.toList ∧ n ≠ "" ∧ n ≠ "." ∧ n ≠ ".."

theorem IsName.step? (h : IsName n) : step? n = some (.name n) := by
  simp [Path.step?, insignificant, h.2.1, h.2.2.1, h.2.2.2]

theorem step?_empty : step? "" = none := rfl

theorem segments_ne_nil (p : Path) : p.segments ≠ [] := by
  simpa [segments] using Text.splitOn_ne_nil '/' p.text.toList

theorem segments_slash (a n : String) :
    segments ⟨a ++ "/" ++ n⟩ = segments ⟨a⟩ ++ segments ⟨n⟩ := by
  simp [segments, Text.splitOn_append]

theorem segments_of_not_mem (h : '/' ∉ n.toList) : segments ⟨n⟩ = [n] := by
  simp [segments, Text.splitOn_of_not_mem h]

theorem isAbsolute_slash (a n : String) :
    isAbsolute ⟨a ++ "/" ++ n⟩ = isAbsolute ⟨a ++ "/"⟩ := by
  simp only [isAbsolute, String.toList_append]
  cases a.toList <;> rfl

/-- The components that the first segment of a path stands for. -/
def startOf (absolute : Bool) (first : String) : List Component :=
  if first = "" then (if absolute then [.root] else [])
  else if first = "." then [.here]
  else (step? first).toList

theorem components_of_segments {first : String} {inner : List String} (h : p.segments = first :: inner) :
    p.components = startOf p.isAbsolute first ++ inner.filterMap step? := by
  rw [components, h]
  split
  · contradiction
  · rename_i heq
    obtain ⟨rfl, rfl⟩ := List.cons.inj heq
    simp [startOf]
  · rename_i heq
    obtain ⟨rfl, rfl⟩ := List.cons.inj heq
    simp [startOf]
  · rename_i hne hdot heq
    obtain ⟨rfl, rfl⟩ := List.cons.inj heq
    simp only [startOf, if_neg hne, if_neg hdot, filterMap_cons]
    cases step? first <;> rfl

/-- A name after a slash is one more component. -/
theorem components_slash (a : String) (h : IsName n) :
    components ⟨a ++ "/" ++ n⟩ = components ⟨a ++ "/"⟩ ++ [.name n] := by
  obtain ⟨first, inner, hs⟩ := exists_cons_of_ne_nil (segments_ne_nil ⟨a⟩)
  have hempty : segments ⟨a ++ "/"⟩ = segments ⟨a⟩ ++ [""] := by
    simpa [segments_of_not_mem] using segments_slash a ""
  have hname : segments ⟨a ++ "/" ++ n⟩ = first :: (inner ++ [n]) := by
    rw [segments_slash, segments_of_not_mem h.1, hs, cons_append]
  rw [hs, cons_append] at hempty
  rw [components_of_segments hname, components_of_segments hempty, isAbsolute_slash]
  simp [filterMap_cons, h.step?, step?_empty]

/-- A slash at the end says nothing. -/
theorem components_slash_nil {a} (h : a ≠ "") : components ⟨a ++ "/"⟩ = components ⟨a⟩ := by
  obtain ⟨first, inner, hs⟩ := exists_cons_of_ne_nil (segments_ne_nil ⟨a⟩)
  have hempty : segments ⟨a ++ "/"⟩ = first :: (inner ++ [""]) := by
    simpa [segments_of_not_mem, hs] using segments_slash a ""
  have habs : isAbsolute ⟨a ++ "/"⟩ = isAbsolute ⟨a⟩ := by
    simp only [isAbsolute, String.toList_append]
    cases ha : a.toList with
    | nil => exact absurd (String.toList_eq_nil_iff.1 ha) h
    | cons c cs => rfl
  rw [components_of_segments hempty, components_of_segments hs, habs]
  simp [filterMap_cons, step?_empty]

theorem components_name (h : IsName n) : components ⟨n⟩ = [.name n] := by
  rw [components_of_segments (segments_of_not_mem h.1)]
  simp [startOf, h.2.1, h.2.2.1, h.step?]

theorem not_isAbsolute_of_isName (h : IsName n) : isAbsolute ⟨n⟩ = false := by
  simp only [isAbsolute, beq_eq_false_iff_ne]
  intro hhead
  exact h.1 (mem_of_head? hhead)

theorem eq_append_slash_of_getLast? {a} (h : a.toList.getLast? = some '/') : ∃ b, a = b ++ "/" := by
  obtain ⟨cs, hcs⟩ := getLast?_eq_some_iff.1 h
  exact ⟨String.ofList cs, by rw [← String.toList_inj]; simpa using hcs⟩

/-- A name below a path is one more component. -/
theorem components_child (p : Path) (h : IsName n) : (p.child n).components = p.components ++ [.name n] := by
  obtain ⟨text⟩ := p
  simp only [child, join, not_isAbsolute_of_isName h, Bool.false_eq_true, if_false]
  by_cases hempty : text = ""
  · subst hempty
    simp [components_name h, components_of_segments (segments_of_not_mem (n := "") (by simp)), startOf,
      isAbsolute]
  · by_cases hlast : text.toList.getLast? = some '/'
    · obtain ⟨b, rfl⟩ := eq_append_slash_of_getLast? hlast
      simp [components_slash b h]
    · simp [hlast, hempty, components_slash text h, components_slash_nil hempty]

/-- The text before what is joined to a path. -/
def lead (p : Path) : String :=
  if p.text == "" || p.text.toList.getLast? == some '/' then p.text else p.text ++ "/"

theorem join_of_relative (h : q.isAbsolute = false) : p.join q = ⟨p.lead ++ q.text⟩ := by
  simp only [join, h, lead, Bool.false_eq_true, if_false]
  split <;> rfl

theorem child_eq (p : Path) (h : IsName n) : p.child n = ⟨p.lead ++ n⟩ :=
  join_of_relative (not_isAbsolute_of_isName h)

theorem lead_cases (p : Path) :
    (p.lead = "" ∧ p.text = "") ∨ (p.lead.toList.getLast? = some '/' ∧ p.lead.toList.head? = p.text.toList.head?) := by
  rw [lead]
  split
  · rename_i h
    rw [Bool.or_eq_true, beq_iff_eq, beq_iff_eq] at h
    exact h.imp (fun h => ⟨h, h⟩) fun h => ⟨h, rfl⟩
  · rename_i h
    cases ht : p.text.toList with
    | nil => simp [String.toList_eq_nil_iff.1 ht] at h
    | cons c cs => exact .inr ⟨by rw [String.toList_append, getLast?_append]; rfl, by simp [ht]⟩

theorem isAbsolute_child (p : Path) (h : IsName n) : (p.child n).isAbsolute = p.isAbsolute := by
  rw [child_eq p h, isAbsolute, isAbsolute, String.toList_append]
  rcases p.lead_cases with ⟨hl, ht⟩ | ⟨hl, ht⟩
  · rw [hl, ht]
    exact not_isAbsolute_of_isName h
  · cases hc : p.lead.toList with
    | nil => simp [hc] at hl
    | cons c cs => rw [← ht, hc, cons_append, head?_cons, head?_cons]

theorem lead_append (a : Path) (b : String) : lead ⟨a.lead ++ b⟩ = a.lead ++ lead ⟨b⟩ := by
  cases hb : b.toList.getLast? with
  | none =>
    have hempty : b = "" := String.toList_eq_nil_iff.1 (getLast?_eq_none_iff.1 hb)
    subst hempty
    have hlead : (a.lead == "" || a.lead.toList.getLast? == some '/') = true := by
      rcases a.lead_cases with ⟨hl, -⟩ | ⟨hl, -⟩ <;> simp [hl]
    rw [String.append_empty, lead.eq_def ⟨a.lead⟩, if_pos hlead]
    simp [show lead ⟨""⟩ = "" from rfl]
  | some c =>
    have hne : b ≠ "" := by
      rintro rfl
      simp at hb
    by_cases hc : c = '/' <;>
      simp [lead.eq_def ⟨a.lead ++ b⟩, lead.eq_def ⟨b⟩, hb, hne, hc, String.append_assoc]

theorem join_child (q p : Path) (h : IsName n) (hp : p.isAbsolute = false) :
    q.join (p.child n) = (q.join p).child n := by
  rw [join_of_relative (by rw [isAbsolute_child p h, hp]), child_eq p h, join_of_relative hp, child_eq _ h,
    lead_append, String.append_assoc]

/-! ### Resolved paths -/

/-- The components of a path once it is resolved. -/
def steps (p : Path) : List Component := (p.components.foldl resolveStep []).reverse

theorem resolve_eq (p : Path) : p.resolve = ofComponents p.steps := rfl

theorem resolveStep_name (done : List Component) (n : String) :
    resolveStep done (.name n) = .name n :: done := by
  cases done with
  | nil => rfl
  | cons c done => cases c <;> rfl

theorem steps_child (p : Path) (h : IsName n) : (p.child n).steps = p.steps ++ [.name n] := by
  rw [steps, components_child p h, foldl_append, foldl_cons, foldl_nil, resolveStep_name,
    reverse_cons, steps]

/-! ### The text of resolved paths -/

/-- The text of components before a last name. -/
def textBefore : List Component → String
  | .root :: steps => "/" ++ String.join (steps.map fun c => c.text ++ "/")
  | steps => String.join (steps.map fun c => c.text ++ "/")

theorem textJoin_concat (items : List String) (n : String) :
    Text.join "/" (items ++ [n]) = String.join (items.map (· ++ "/")) ++ n := by
  induction items with
  | nil => simp [Text.join]
  | cons item items ih =>
    rw [Text.join] at ih ⊢
    rw [cons_append, String.intercalate_cons_of_ne_nil (by simp), ih]
    simp [String.append_assoc]

theorem text_ofComponents_concat (n : String) :
    (ofComponents (xs ++ [.name n])).text = textBefore xs ++ n := by
  have hjoin : ∀ ys : List Component, Text.join "/" ((ys ++ [Component.name n]).map Component.text) =
      String.join (ys.map fun c => c.text ++ "/") ++ n := by
    intro ys
    simpa [Component.text, Function.comp_def] using textJoin_concat (ys.map Component.text) n
  cases xs with
  | nil => exact hjoin []
  | cons c xs =>
    cases c with
    | root => simp only [cons_append, ofComponents, textBefore, hjoin, String.append_assoc]
    | here => exact hjoin (.here :: xs)
    | up => exact hjoin (.up :: xs)
    | name m => exact hjoin (.name m :: xs)

/-! ### Ways from the root -/

/-- The steps from the root, the last one first. The root keeps one `..`, and takes it back with
the next. -/
inductive Trail : List Component → Prop where
  | root : Trail [.root]
  | up : Trail [.up, .root]
  | name {done : List Component} {n : String} (h : Trail done) (hn : IsName n) : Trail (.name n :: done)

theorem Trail.resolveStep {c : Component} (h : Trail done) (hc : c ≠ .root) (hname : ∀ n, c = .name n → IsName n) :
    Trail (resolveStep done c) := by
  cases c with
  | root => contradiction
  | here => cases h <;> (constructor <;> assumption)
  | up =>
    cases h with
    | root => exact .up
    | up => exact .root
    | name h hn => exact h
  | name n =>
    rw [resolveStep_name]
    exact h.name (hname n rfl)

theorem Trail.foldl_resolveStep {cs : List Component} (h : Trail done) (hc : ∀ c ∈ cs, c ≠ .root)
    (hname : ∀ n, .name n ∈ cs → IsName n) : Trail (cs.foldl Path.resolveStep done) := by
  induction cs generalizing done with
  | nil => exact h
  | cons c cs ih =>
    refine ih (h.resolveStep (hc c mem_cons_self) fun n hn => hname n (hn ▸ mem_cons_self)) ?_ ?_
    · exact fun c' hc' => hc c' (mem_cons_of_mem c hc')
    · exact fun n hn => hname n (mem_cons_of_mem c hn)

theorem Trail.foldl_reverse (h : Trail done) : done.reverse.foldl Path.resolveStep [] = done := by
  induction h with
  | root => rfl
  | up => rfl
  | name h hn ih => rw [reverse_cons, foldl_append, ih, foldl_cons, foldl_nil, resolveStep_name]

theorem step?_cases {segment : String} {c : Component} (h : step? segment = some c) :
    c = .up ∨ (c = .name segment ∧ segment ≠ "" ∧ segment ≠ "." ∧ segment ≠ "..") := by
  unfold step? insignificant at h
  split at h
  · contradiction
  · rename_i hsignificant
    simp only [Bool.or_eq_true, beq_iff_eq, not_or] at hsignificant
    split at h
    · exact .inl (Option.some.inj h).symm
    · rename_i hup
      exact .inr ⟨(Option.some.inj h).symm, hsignificant.1, hsignificant.2, by simpa using hup⟩

theorem segments_of_isAbsolute (h : p.isAbsolute) : ∃ inner, p.segments = "" :: inner := by
  obtain ⟨text⟩ := p
  simp only [isAbsolute, beq_iff_eq] at h
  cases htext : text.toList with
  | nil => simp [htext] at h
  | cons c cs =>
    obtain rfl : c = '/' := by simpa [htext] using h
    refine ⟨(Text.splitOn '/' cs).map String.ofList, ?_⟩
    have hsplit := Text.splitOn_append '/' [] cs
    simp only [nil_append] at hsplit
    rw [segments, htext, hsplit]
    simp [Text.splitOn]

/-- The steps of an absolute path lead from the root. -/
theorem trail_of_isAbsolute (h : p.isAbsolute) : Trail (p.components.foldl resolveStep []) := by
  obtain ⟨inner, hsegments⟩ := segments_of_isAbsolute h
  have hcomponents : p.components = .root :: inner.filterMap step? := by
    simp [components_of_segments hsegments, startOf, h]
  rw [hcomponents, foldl_cons]
  refine Trail.root.foldl_resolveStep (fun c hc => ?_) fun n hn => ?_
  · obtain ⟨segment, -, hstep⟩ := mem_filterMap.1 hc
    rcases step?_cases hstep with rfl | ⟨rfl, -⟩ <;> simp
  · obtain ⟨segment, hmem, hstep⟩ := mem_filterMap.1 hn
    rcases step?_cases hstep with he | ⟨he, hne⟩
    · contradiction
    · obtain rfl := Component.name.inj he
      refine ⟨?_, hne⟩
      have hpiece : n ∈ p.segments := by rw [hsegments]; exact mem_cons_of_mem _ hmem
      obtain ⟨piece, hsplit, rfl⟩ := mem_map.1 hpiece
      simpa using Text.not_mem_of_mem_splitOn hsplit

/-- The path that a way from the root leads to. -/
def ofTrail (done : List Component) : Path := ofComponents done.reverse

theorem textBefore_concat (n : String) :
    textBefore (xs ++ [.name n]) = textBefore xs ++ n ++ "/" := by
  cases xs with
  | nil => simp [textBefore, Component.text]
  | cons c xs => cases c <;> simp [textBefore, Component.text, String.append_assoc]

section

variable (h : Trail done)
include h

theorem Trail.lead_ofTrail : (ofTrail done).lead = textBefore done.reverse := by
  cases h with
  | root => decide
  | up => decide
  | @name done n h hn =>
    obtain ⟨c, hc⟩ : ∃ c, n.toList.getLast? = some c := by
      cases hc : n.toList.getLast? with
      | none => exact absurd (String.toList_eq_nil_iff.1 (getLast?_eq_none_iff.1 hc)) hn.2.1
      | some c => exact ⟨c, rfl⟩
    have hslash : c ≠ '/' := fun he => hn.1 (he ▸ mem_of_getLast? hc)
    have htext := text_ofComponents_concat done.reverse n
    have hlast : (textBefore done.reverse ++ n).toList.getLast? = some c := by
      rw [String.toList_append, getLast?_append, hc, Option.some_or]
    have hne : textBefore done.reverse ++ n ≠ "" := fun he => by simp [he] at hlast
    rw [reverse_cons, textBefore_concat, ofTrail, reverse_cons, lead, htext, hlast, if_neg]
    simpa [hne] using hslash

/-- The way goes on with a name below. -/
theorem Trail.ofTrail_name (hn : IsName n) : ofTrail (.name n :: done) = (ofTrail done).child n := by
  rw [child_eq _ hn, h.lead_ofTrail, ← text_ofComponents_concat, ← reverse_cons]
  rfl

theorem Trail.components_ofTrail : (ofTrail done).components = done.reverse := by
  induction h with
  | root => decide
  | up => decide
  | name h hn ih => rw [h.ofTrail_name hn, components_child _ hn, ih, reverse_cons]

theorem Trail.isAbsolute_ofTrail : (ofTrail done).isAbsolute := by
  induction h with
  | root => decide
  | up => decide
  | name h hn ih => rw [h.ofTrail_name hn, isAbsolute_child _ hn, ih]

theorem Trail.resolve_ofTrail : (ofTrail done).resolve = ofTrail done := by
  rw [resolve, h.components_ofTrail, h.foldl_reverse, ofTrail]

theorem Trail.reverse_eq : done.reverse = .root :: done.dropLast.reverse := by
  induction h with
  | root => rfl
  | up => rfl
  | @name done n h hn ih =>
    have hne : done ≠ [] := fun he => by simp [he] at ih
    rw [reverse_cons, ih, dropLast_cons_of_ne_nil hne, reverse_cons, cons_append]

theorem Trail.not_insignificant {c} (hc : c ∈ done.dropLast) : insignificant c.text = false := by
  induction h with
  | root => contradiction
  | up =>
    obtain rfl : c = .up := by simpa using hc
    decide
  | @name done n h hn ih =>
    have hne : done ≠ [] := fun he => by simpa [he] using h.reverse_eq
    rw [dropLast_cons_of_ne_nil hne] at hc
    rcases mem_cons.1 hc with rfl | hc
    · simp [insignificant, Component.text, hn.2.1, hn.2.2.1]
    · exact ih hc

theorem Trail.lead_eq_append (hne : done ≠ [.root]) : (ofTrail done).lead = (ofTrail done).text ++ "/" := by
  cases h with
  | root => contradiction
  | up => decide
  | @name done n h hn =>
    rw [(h.name hn).lead_ofTrail, ofTrail, reverse_cons, textBefore_concat, text_ofComponents_concat]

theorem Trail.segments_ofTrail (hne : done ≠ [.root]) :
    (ofTrail done).segments = "" :: done.dropLast.reverse.map Component.text := by
  induction h with
  | root => contradiction
  | up => decide
  | @name done n h hn ih =>
    have hnil : done ≠ [] := fun he => by simpa [he] using h.reverse_eq
    have hn' := segments_of_not_mem hn.1
    rw [h.ofTrail_name hn, child_eq _ hn, dropLast_cons_of_ne_nil hnil, reverse_cons, map_append]
    by_cases hroot : done = [.root]
    · subst hroot
      exact (segments_slash "" n).trans (congrArg (segments ⟨""⟩ ++ ·) hn')
    · rw [h.lead_eq_append hroot, segments_slash, hn', ih hroot]
      rfl

end

/-- The directory around a place is one step back. -/
theorem Trail.parent?_ofTrail {c} (h : Trail (c :: done)) (hdone : Trail done) :
    (ofTrail (c :: done)).parent? = some (ofTrail done) := by
  have hnil : done ≠ [] := fun he => by simpa [he] using hdone.reverse_eq
  have hne : c :: done ≠ [.root] := fun he => hnil (List.cons.inj he).2
  have hc : insignificant c.text = false := h.not_insignificant (by simp [dropLast_cons_of_ne_nil hnil])
  have hkept : (done.dropLast.map Component.text).dropWhile insignificant = done.dropLast.map Component.text := by
    cases hdrop : done.dropLast with
    | nil => rfl
    | cons x xs => simp [hdone.not_insignificant (c := x) (by simp [hdrop])]
  have htext : ofTrail done = ⟨"/" ++ Text.join "/" (done.dropLast.reverse.map Component.text)⟩ := by
    rw [ofTrail, hdone.reverse_eq, ofComponents]
  rw [parent?, h.segments_ofTrail hne, htext]
  simp only [dropLast_cons_of_ne_nil hnil, map_reverse, reverse_reverse, map_cons, dropWhile_cons,
    hc, Bool.false_eq_true, if_false, hkept]
  cases hrest : (done.dropLast.map Component.text).reverse with
  | nil => rfl
  | cons x xs => simp [Text.join, String.intercalate_cons_of_ne_nil]

theorem same_iff : p.same q ↔ p.components = q.components := by
  rw [same, Bool.or_eq_true, beq_iff_eq, beq_iff_eq]
  exact ⟨fun h => h.elim (congrArg components) id, .inr⟩

/-- A path from the root without `.` steps, and with no `..` step but one at the root. -/
def IsResolved (p : Path) : Prop := ∃ done, Trail done ∧ p = ofTrail done

theorem isResolved_resolve (h : p.isAbsolute) : p.resolve.IsResolved := ⟨_, trail_of_isAbsolute h, rfl⟩

namespace IsResolved

variable {p dir : Path}

section

variable (h : p.IsResolved)
include h

theorem resolve : p.resolve = p := by
  obtain ⟨done, hdone, rfl⟩ := h
  exact hdone.resolve_ofTrail

theorem isAbsolute : p.isAbsolute := by
  obtain ⟨done, hdone, rfl⟩ := h
  exact hdone.isAbsolute_ofTrail

theorem parent (hdir : p.parent? = some dir) : dir.IsResolved ∧ dir.components.length < p.components.length := by
  obtain ⟨done, hdone, rfl⟩ := h
  have hshorter : ∀ {c : Component} {rest : List Component}, Trail (c :: rest) → Trail rest →
      (ofTrail (c :: rest)).parent? = some dir →
      dir.IsResolved ∧ dir.components.length < (ofTrail (c :: rest)).components.length := by
    intro c rest hfull hrest hparent
    obtain rfl := Option.some.inj ((hfull.parent?_ofTrail hrest).symm.trans hparent)
    refine ⟨⟨rest, hrest, rfl⟩, ?_⟩
    simp [hrest.components_ofTrail, hfull.components_ofTrail]
  cases hdone with
  | root =>
    have hnone : (ofTrail [.root]).parent? = none := by decide
    rw [hnone] at hdir
    contradiction
  | up => exact hshorter .up .root hdir
  | name h hn => exact hshorter (h.name hn) h hdir

/-- Resolved paths have one spelling. -/
theorem eq_of_same {q} (hq : q.IsResolved) (hsame : p.same q) : p = q := by
  obtain ⟨done, hdone, rfl⟩ := h
  obtain ⟨done', hdone', rfl⟩ := hq
  rw [same_iff, hdone.components_ofTrail, hdone'.components_ofTrail, reverse_inj] at hsame
  rw [hsame]

end

end IsResolved

/-! ### Source files -/

/-- A path to a source file ends with the name of one. -/
theorem exists_source_name (h : p.isSourceFile) :
    ∃ n, IsName n ∧ isSourceFile ⟨n⟩ ∧ (p = ⟨n⟩ ∨ ∃ a, p = ⟨a ++ "/" ++ n⟩) := by
  obtain ⟨text⟩ := p
  simp only [isSourceFile, isSuffixOf_iff_suffix] at h ⊢
  have hname : ∀ n : String, '/' ∉ n.toList → sourceSuffix.toList <:+ n.toList → IsName n := by
    intro n hslash hsuffix
    have hlast : n.toList.getLast? = some 'y' := by
      obtain ⟨a, ha⟩ := hsuffix
      rw [← ha]
      simp [sourceSuffix]
    refine ⟨hslash, ?_, ?_, ?_⟩ <;>
    · intro he
      simp [he] at hlast
  by_cases hslash : '/' ∈ text.toList
  · obtain ⟨b, a, hsplit, hb⟩ := eq_append_cons_of_mem (mem_reverse.2 hslash)
    have htext : text.toList = a.reverse ++ '/' :: b.reverse := by
      rw [← reverse_reverse text.toList, hsplit]
      simp
    have hsuffix : sourceSuffix.toList <:+ b.reverse := by
      have htail : '/' :: b.reverse <:+ text.toList := ⟨a.reverse, htext.symm⟩
      rcases suffix_or_suffix_of_suffix h htail with h' | h'
      · rcases suffix_cons_iff.1 h' with he | h'
        · simp [sourceSuffix] at he
        · exact h'
      · have hmem := h'.subset mem_cons_self
        simp [sourceSuffix] at hmem
    refine ⟨String.ofList b.reverse, hname _ (by simpa using hb) (by simpa using hsuffix),
      by simpa using hsuffix, .inr ⟨String.ofList a.reverse, ?_⟩⟩
    rw [mk.injEq, ← String.toList_inj, htext]
    simp
  · exact ⟨text, hname text hslash h, h, .inl rfl⟩

theorem isSourceFile_append {a} (h : isSourceFile ⟨n⟩) : isSourceFile ⟨a ++ n⟩ := by
  simp only [isSourceFile, isSuffixOf_iff_suffix, String.toList_append] at h ⊢
  exact h.trans (suffix_append _ _)

theorem isSourceFile_resolve (h : p.isSourceFile) : p.resolve.isSourceFile := by
  obtain ⟨n, hname, hsource, hp⟩ := exists_source_name h
  have hcomponents : ∃ before, p.components = before ++ [.name n] := by
    rcases hp with rfl | ⟨a, rfl⟩
    · exact ⟨[], components_name hname⟩
    · exact ⟨_, components_slash a hname⟩
  obtain ⟨before, hbefore⟩ := hcomponents
  have hsteps : p.steps = (before.foldl resolveStep []).reverse ++ [.name n] := by
    rw [steps, hbefore, foldl_append, foldl_cons, foldl_nil, resolveStep_name, reverse_cons]
  have htext := text_ofComponents_concat (before.foldl resolveStep []).reverse n
  rw [← hsteps, ← resolve_eq] at htext
  rw [show p.resolve = ⟨_⟩ from congrArg mk htext]
  exact isSourceFile_append hsource

theorem isSourceFile_join (p : Path) (h : q.isSourceFile) : (p.join q).isSourceFile := by
  cases habs : q.isAbsolute with
  | true => simpa [join, habs] using h
  | false =>
    rw [join_of_relative habs]
    exact isSourceFile_append h

theorem isSourceFile_name : isSourceFile ⟨name ++ sourceSuffix⟩ :=
  isSourceFile_append (by decide)

theorem isSourceFile_child (p : Path) (h : isSourceFile ⟨n⟩) : (p.child n).isSourceFile :=
  isSourceFile_join p h

theorem isSourceFile_initFile : dir.initFile.isSourceFile := dir.isSourceFile_child (by decide)

theorem isSourceFile_moduleFile : (dir.moduleFile name).isSourceFile :=
  dir.isSourceFile_child (isSourceFile_name name)

theorem isSourceFile_withFileName (p : Path) (h : isSourceFile ⟨n⟩) :
    (p.withFileName n).isSourceFile := by
  rw [withFileName]
  split
  · exact p.parentOrEmpty.isSourceFile_child h
  · exact p.isSourceFile_child h

end Path

end TypeInfer
