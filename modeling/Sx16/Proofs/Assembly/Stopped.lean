/-
# Where an assembly stops

A run takes lines one after the other until one of them is refused or ends the source text, and no later line
is looked at. So what becomes of a source text that is refused at a line, or ended by one, is settled by the
lines up to there. The error of a refused line is one of its own: it carries the number of the line or names
a symbol that the line names. If no line is refused, all that is left to fail is the resolution of a name that
is used, is not shared and is no label.

Key definitions: `Assembly.Takes`, `Assembly.Reading`, `AssemblyError.OfLine`, `Complains`,
`firstFault?`, `RefusedAt`, `EndsAt`, `Program.Lacks`.
Key theorems: `Assembly.reading`, `Assembly.error_of_feed`, `Follows.lacks_of_finish`,
`assemble_stops_at_first_fault`.
-/
import Sx16.Proofs.Assembly.Alike
import Sx16.Proofs.Assembly.Effects

namespace Sx16
namespace Assembly

/-! ### How a run over lines goes -/

/-- Lines are taken one after the other, and after each of them more are wanted. -/
inductive Takes : Assembly → List String → Assembly → Prop where
  | nil (a : Assembly) : Takes a [] a
  | cons {a b c : Assembly} {t : String} {ts : List String} (h : (feed t).run a = .ok .more b)
    (hs : Takes b ts c) : Takes a (t :: ts) c

/-- A run over lines, by its result. -/
inductive Reading (a : Assembly) : List String → EStateM.Result AssemblyError Assembly Unit → Prop where
  | through {ts : List String} {b : Assembly} (h : Takes a ts b) : Reading a ts (.ok () b)
  | ended {before : List String} {t : String} {b c : Assembly} (h : Takes a before b)
    (hend : (feed t).run b = .ok .finished c) (after : List String) :
    Reading a (before ++ t :: after) (.ok () c)
  | refused {before : List String} {t : String} {b c : Assembly} {e : AssemblyError}
    (h : Takes a before b) (herror : (feed t).run b = .error e c) (after : List String) :
    Reading a (before ++ t :: after) (.error e c)

variable {a b c : Assembly} {t : String} {ts us : List String} {e : AssemblyError}

theorem Reading.cons {r : EStateM.Result AssemblyError Assembly Unit} (h : (feed t).run a = .ok .more b)
    (hr : Reading b ts r) : Reading a (t :: ts) r := by
  cases hr with
  | through hs => exact .through (.cons h hs)
  | ended hs hend after => exact .ended (.cons h hs) hend after
  | refused hs herror after => exact .refused (.cons h hs) herror after

/-- **Every run over lines** goes through all of them, is ended by one or refused at one. -/
theorem reading (a : Assembly) (ts : List String) : Reading a ts ((feedAll ts).run a) := by
  induction ts generalizing a with
  | nil => exact .through (.nil a)
  | cons t ts ih =>
    rw [feedAll, EStateM.run_bind]
    cases hfeed : (feed t).run a with
    | error e b => exact .refused (.nil a) hfeed ts
    | ok flow b =>
      cases flow with
      | finished => exact .ended (.nil a) hfeed ts
      | more => exact .cons hfeed (ih b)

theorem Takes.run_feedAll_append (h : Takes a ts b) (us : List String) :
    (feedAll (ts ++ us)).run a = (feedAll us).run b := by
  induction h with
  | nil => rfl
  | cons h _ ih =>
    rw [List.cons_append, feedAll, EStateM.run_bind, h]
    exact ih

theorem Takes.run_feedAll_of_error (h : Takes a ts b) (herror : (feed t).run b = .error e c)
    (us : List String) : (feedAll (ts ++ t :: us)).run a = .error e c := by
  rw [h.run_feedAll_append, feedAll, EStateM.run_bind, herror]

theorem Takes.run_feedAll_of_finished (h : Takes a ts b) (hend : (feed t).run b = .ok .finished c)
    (us : List String) : (feedAll (ts ++ t :: us)).run a = .ok () c := by
  rw [h.run_feedAll_append, feedAll, EStateM.run_bind, hend]
  rfl

/-- A line that ends the source text is the last one that counts, if all lines up to it are taken. -/
theorem run_feedAll_of_ends {l : SourceLine} (hread : SourceLine.ofText t = .ok l)
    (hends : l.ends = true) (hrun : (feedAll (ts ++ [t])).run a = .ok () c) (us : List String) :
    (feedAll (ts ++ t :: us)).run a = .ok () c := by
  have hreading := reading a ts
  generalize hr : (feedAll ts).run a = r at hreading
  cases hreading with
  | through htakes =>
    rw [htakes.run_feedAll_append] at hrun
    obtain ⟨flow, b', hfeed, hrest⟩ := ok_of_run_bind hrun
    rw [run_feed_of_read hread] at hfeed
    obtain rfl := finished_of_ends hends hfeed
    cases hrest
    exact htakes.run_feedAll_of_finished ((run_feed_of_read hread _).trans hfeed) us
  | ended htakes hend after =>
    rw [List.append_assoc, List.cons_append] at hrun ⊢
    rw [htakes.run_feedAll_of_finished hend] at hrun ⊢
    exact hrun
  | refused htakes herror after =>
    rw [List.append_assoc, List.cons_append, htakes.run_feedAll_of_error herror] at hrun
    cases hrun

end Assembly

/-! ### What a line complains about -/

/-- The errors for which a line with a number can be refused after it was read. -/
inductive SourceLine.Refuses (l : SourceLine) (n : Nat) : AssemblyError → Prop where
  | noSection : Refuses l n (.noSection n)
  | sectionTooLarge : Refuses l n (.sectionTooLarge n)
  | sectionDefined {name : String} (h : l.statement = some (.directive (.newSection name))) :
    Refuses l n (.sectionDefined n)
  | redefinedLabel {name : String} (h : l.label = some name) : Refuses l n (.redefinedLabel name)
  | definesImported {name : String} (h : l.label = some name) : Refuses l n (.definesImported name)
  | exportsImported {name : String} {names : List String}
    (h : l.statement = some (.directive (.exports names))) (hname : name ∈ names) :
    Refuses l n (.exportsImported name)
  | importsExported {name : String} {names : List String}
    (h : l.statement = some (.directive (.imports names))) (hname : name ∈ names) :
    Refuses l n (.importsExported name)
  | importsDefined {name : String} {names : List String}
    (h : l.statement = some (.directive (.imports names))) (hname : name ∈ names) :
    Refuses l n (.importsDefined name)

/-- The errors for which a line of a source text can be refused. -/
inductive AssemblyError.OfLine (n : Nat) (t : String) : AssemblyError → Prop where
  | faulty {fault : LineFault} (h : SourceLine.ofText t = .error fault) :
    OfLine n t (.faultyLine n fault)
  | refused {l : SourceLine} {e : AssemblyError} (h : SourceLine.ofText t = .ok l)
    (he : l.Refuses n e) : OfLine n t e

/-- The symbol that an error is of. -/
def AssemblyError.symbol? : AssemblyError → Option String
  | exportsImported name | importsExported name | importsDefined name | definesImported name
  | redefinedLabel name | undefinedLabel name => some name
  | _ => none

/-- **An error of a line** carries its number, unless it names a symbol instead. -/
theorem AssemblyError.OfLine.line? {n : Nat} {t : String} {e : AssemblyError} (h : e.OfLine n t) :
    e.line? = if e.symbol?.isSome then none else some n := by
  cases h with
  | faulty => rfl
  | refused _ he => cases he <;> rfl

/-- A result at a line: no line was counted, and an error is one that the line may have. -/
inductive Answer {α : Type} (P : Nat → AssemblyError → Prop) (n : Nat) :
    EStateM.Result AssemblyError Assembly α → Prop where
  | ok {r : α} {b : Assembly} (h : b.line = n) : Answer P n (.ok r b)
  | error {e : AssemblyError} {b : Assembly} (h : b.line = n) (he : P n e) : Answer P n (.error e b)

/-- An action counts no lines, and its errors are those that the present line may have. -/
def Complains {α : Type} (P : Nat → AssemblyError → Prop) (x : AssemblyM α) : Prop :=
  ∀ a, Answer P a.line (x.run a)

namespace Complains

variable {α β : Type} {P : Nat → AssemblyError → Prop} {x : AssemblyM α} {a b : Assembly}

theorem line {r : α} (hx : Complains P x) (h : x.run a = .ok r b) : b.line = a.line := by
  have ha := hx a
  rw [h] at ha
  cases ha with
  | ok hline => exact hline

theorem error {e : AssemblyError} (hx : Complains P x) (h : x.run a = .error e b) :
    b.line = a.line ∧ P a.line e := by
  have ha := hx a
  rw [h] at ha
  cases ha with
  | error hline he => exact ⟨hline, he⟩

theorem pure (r : α) : Complains P (Pure.pure r) := fun _ => .ok rfl

theorem get : Complains P (MonadState.get : AssemblyM Assembly) := fun _ => .ok rfl

theorem modify {f : Assembly → Assembly} (hf : ∀ a, (f a).line = a.line) :
    Complains P (modifyGet fun a => ((), f a) : AssemblyM Unit) := fun a => .ok (hf a)

theorem bind {f : α → AssemblyM β} (hx : Complains P x) (hf : ∀ r, Complains P (f r)) :
    Complains P (x >>= f) := by
  intro a
  rw [EStateM.run_bind]
  cases hrun : x.run a with
  | error e b =>
    obtain ⟨hline, he⟩ := hx.error hrun
    exact .error hline he
  | ok r b =>
    rw [← hx.line hrun]
    exact hf r b

end Complains

namespace Assembly

variable {P : Nat → AssemblyError → Prop}

theorem complains_openSection (hnone : ∀ n, P n (.noSection n)) : Complains P openSection := by
  intro a
  rw [run_openSection]
  split
  · exact .ok rfl
  · exact .error rfl (hnone _)

theorem complains_emit (hnone : ∀ n, P n (.noSection n)) (hlarge : ∀ n, P n (.sectionTooLarge n))
    (bytes : List UInt8) : Complains P (emit bytes) := by
  intro a
  rw [run_emit]
  split
  · exact .error rfl (hnone _)
  · split
    · exact .error rfl (hlarge _)
    · exact .ok rfl

theorem complains_recordUse (name : String) (use : PendingUse) : Complains P (recordUse name use) :=
  .modify fun _ => rfl

theorem complains_recordWords (home : Nat) (offset : UInt16) (values : List Value) :
    Complains P (recordWords home offset values) := by
  induction values generalizing offset with
  | nil => exact .pure ()
  | cons v vs ih =>
    cases v with
    | literal w => exact ih (offset + 2)
    | symbol name => exact (complains_recordUse name _).bind fun _ => ih (offset + 2)

theorem complains_defineLabel (name : String) (hnone : ∀ n, P n (.noSection n))
    (hold : ∀ n, P n (.redefinedLabel name)) (himp : ∀ n, P n (.definesImported name)) :
    Complains P (defineLabel name) := by
  intro a
  rw [run_defineLabel]
  split
  · exact .error rfl (hnone _)
  · split
    · exact .error rfl (hold _)
    · split
      · exact .error rfl (himp _)
      · exact .ok rfl

theorem complains_markExported {names : List String}
    (himp : ∀ n, ∀ name ∈ names, P n (.exportsImported name)) : Complains P (markExported names) := by
  induction names with
  | nil => exact .pure ()
  | cons name names ih =>
    have hrest := ih fun n x hx => himp n x (List.mem_cons_of_mem name hx)
    intro a
    rw [run_markExported_cons]
    split
    · exact .error rfl (himp _ name List.mem_cons_self)
    · exact hrest (a.change name _)

theorem complains_markImported {names : List String}
    (hexp : ∀ n, ∀ name ∈ names, P n (.importsExported name))
    (hdef : ∀ n, ∀ name ∈ names, P n (.importsDefined name)) : Complains P (markImported names) := by
  induction names with
  | nil => exact .pure ()
  | cons name names ih =>
    have hrest := ih (fun n x hx => hexp n x (List.mem_cons_of_mem name hx))
      fun n x hx => hdef n x (List.mem_cons_of_mem name hx)
    intro a
    rw [run_markImported_cons]
    split
    · exact .error rfl (hexp _ name List.mem_cons_self)
    · split
      · exact .error rfl (hdef _ name List.mem_cons_self)
      · exact hrest (a.change name _)

theorem complains_startSection (name : String) (hold : ∀ n, P n (.sectionDefined n)) :
    Complains P (startSection name) := by
  intro a
  rw [run_startSection]
  split
  · rw [line_closeSection]
    exact .error (line_closeSection a) (hold _)
  · exact .ok (line_closeSection a)

variable {l : SourceLine}

theorem complains_enter (l : SourceLine) : Complains l.Refuses (enter l.label) := by
  cases hlabel : l.label with
  | none => exact .pure ()
  | some name =>
    exact complains_defineLabel name (fun _ => .noSection) (fun _ => .redefinedLabel hlabel)
      fun _ => .definesImported hlabel

theorem complains_direct {d : Directive} (h : l.statement = some (.directive d)) :
    Complains l.Refuses (direct d) := by
  cases d with
  | exports names =>
    exact (complains_markExported fun _ _ hname => .exportsImported h hname).bind fun _ => .pure _
  | imports names =>
    exact (complains_markImported (fun _ _ hname => .importsExported h hname)
      fun _ _ hname => .importsDefined h hname).bind fun _ => .pure _
  | newSection name =>
    exact (complains_startSection name fun _ => .sectionDefined h).bind fun _ => .pure _
  | words values =>
    exact (complains_openSection fun _ => .noSection).bind fun home => Complains.get.bind fun a =>
      (complains_recordWords home _ values).bind fun _ =>
        (complains_emit (fun _ => .noSection) (fun _ => .sectionTooLarge) _).bind fun _ => .pure _
  | ascii bytes =>
    exact (complains_emit (fun _ => .noSection) (fun _ => .sectionTooLarge) _).bind fun _ => .pure _
  | skip count =>
    exact (complains_emit (fun _ => .noSection) (fun _ => .sectionTooLarge) _).bind fun _ => .pure _
  | finish => exact (Complains.modify line_closeSection).bind fun _ => .pure _

theorem complains_instruct (i : Instruction) : Complains l.Refuses (instruct i) := by
  refine (complains_openSection fun _ => .noSection).bind fun home => ?_
  have hemit : Complains l.Refuses (emit i.encode.bytes >>= fun _ => pure Flow.more) :=
    (complains_emit (fun _ => .noSection) (fun _ => .sectionTooLarge) _).bind fun _ => .pure _
  cases hf : i.encode.fixup with
  | none => simpa only [hf] using hemit
  | some f =>
    simpa only [hf] using Complains.get.bind fun a =>
      (complains_recordUse f.symbol _).bind fun _ => hemit

theorem complains_carryOut (l : SourceLine) : Complains l.Refuses (carryOut l.statement) := by
  cases hstatement : l.statement with
  | none => exact .pure _
  | some s =>
    cases s with
    | directive d => exact complains_direct hstatement
    | instruction i => exact complains_instruct i

/-- **A line is counted**, and if it is refused, then for an error of its own. -/
theorem error_of_feed (h : (feed t).run a = .error e b) :
    b.line = a.line + 1 ∧ e.OfLine (a.line + 1) t := by
  rw [run_feed] at h
  cases ht : SourceLine.ofText t with
  | error fault =>
    rw [ht] at h
    cases h
    exact ⟨rfl, .faulty ht⟩
  | ok l =>
    rw [ht] at h
    obtain ⟨hline, he⟩ := ((complains_enter l).bind fun _ => complains_carryOut l).error h
    exact ⟨hline, .refused ht he⟩

theorem line_of_feed {flow : Flow} (h : (feed t).run a = .ok flow b) : b.line = a.line + 1 := by
  rw [run_feed] at h
  cases ht : SourceLine.ofText t with
  | error fault =>
    rw [ht] at h
    cases h
  | ok l =>
    rw [ht] at h
    exact ((complains_enter l).bind fun _ => complains_carryOut l).line h

theorem Takes.line (h : Takes a ts b) : b.line = a.line + ts.length := by
  induction h with
  | nil => rfl
  | cons h _ ih =>
    rw [ih, line_of_feed h, List.length_cons]
    omega

end Assembly

/-! ### Names that are lacking -/

/-- A name that a placeholder stands for, that is not shared and is no label. -/
structure Program.Lacks (is : Program) (name : String) : Prop where
  used : ∃ r ∈ is.references, r.symbol = name
  unshared : is.isShared name = false
  unlabelled : is.labelAt? name = none

theorem Program.Lacks.not_isKnown {is : Program} {name : String} (h : is.Lacks name) :
    ¬ is.IsKnown name := by
  rintro (hshared | ⟨home, offset, x, hlabel, -⟩)
  · rw [h.unshared] at hshared
    cases hshared
  · rw [h.unlabelled] at hlabel
    cases hlabel

/-- A symbol whose uses are not resolved has some, is not shared and has no definition. -/
theorem Symbol.resolve_eq_error {t : SymbolTable} {s : Symbol} {e : AssemblyError}
    (h : s.resolve t = .error e) :
    e = .undefinedLabel s.name ∧ s.uses ≠ [] ∧ s.isLocal = true ∧ s.isDefined = false := by
  unfold resolve at h
  split at h
  · cases h
  · rename_i huses
    split at h
    · cases h
    · rename_i hlocal
      split at h <;> cases h
      rename_i hdef
      exact ⟨rfl, fun hnil => huses (List.isEmpty_iff.mpr hnil), by simpa using hlocal,
        Bool.eq_false_iff.mpr hdef⟩

/-- Symbols are resolved one after the other. -/
theorem exists_of_resolveAll_eq_error {t : SymbolTable} {ss : List Symbol} {e : AssemblyError}
    (h : resolveAll t ss = .error e) : ∃ s ∈ ss, s.resolve t = .error e := by
  induction ss with
  | nil => cases h
  | cons s ss ih =>
    unfold resolveAll at h
    cases hs : s.resolve t with
    | error e' =>
      rw [hs] at h
      cases h
      exact ⟨s, List.mem_cons_self, hs⟩
    | ok rs =>
      cases hrest : resolveAll t ss with
      | error e' =>
        rw [hs, hrest] at h
        cases h
        obtain ⟨s', hs', herror⟩ := ih hrest
        exact ⟨s', List.mem_cons_of_mem s hs', herror⟩
      | ok rs' =>
        rw [hs, hrest] at h
        cases h

/-- A symbol whose uses are not resolved is of a name that is lacking. -/
theorem Knows.lacks_of_resolve {is : Program} {t : SymbolTable} {s : Symbol} {e : AssemblyError}
    (h : Knows is t) (hs : s ∈ t.toList) (hrun : s.resolve t = .error e) :
    e = .undefinedLabel s.name ∧ is.Lacks s.name := by
  obtain ⟨rfl, huses, hlocal, hdef⟩ := Symbol.resolve_eq_error hrun
  have hd := h.describes_of_mem hs
  refine ⟨rfl, ?_, ?_, hd.labelAt?_eq_none hdef⟩
  · rw [hd.uses] at huses
    obtain ⟨r, hr⟩ := List.exists_mem_of_ne_nil _ fun hnil => huses (List.map_eq_nil_iff.mpr hnil)
    obtain ⟨hr, hname⟩ := List.mem_filter.mp hr
    exact ⟨r, hr, beq_iff_eq.mp hname⟩
  · rwa [hd.isLocal, Bool.not_eq_true'] at hlocal

/-- **A run that cannot be finished** lacks a name. -/
theorem Follows.lacks_of_finish {is : Program} {a : Assembly} {e : AssemblyError} (h : Follows is a)
    (hrun : a.finish = .error e) : ∃ name, e = .undefinedLabel name ∧ is.Lacks name := by
  have hclose := h.closeSection
  cases hrs : resolveAll a.closeSection.symbols a.closeSection.symbols.toList with
  | error e' =>
    obtain rfl : e' = e := by simpa [Assembly.finish, hrs, bind, Except.bind] using hrun
    obtain ⟨s, hs, herror⟩ := exists_of_resolveAll_eq_error hrs
    exact ⟨s.name, hclose.knows.lacks_of_resolve hs herror⟩
  | ok rs =>
    have hok := Assembly.finish_eq_ok_iff.mpr ⟨rs, hrs, hclose.overrun?_eq_none, rfl⟩
    rw [hok] at hrun
    cases hrun

theorem Follows.finish_ne_ok {is : Program} {a : Assembly} {name : String} (h : Follows is a)
    (hlacks : is.Lacks name) (m : ObjectModule) : a.finish ≠ .ok m := by
  intro hrun
  obtain ⟨r, hr, rfl⟩ := hlacks.used
  exact hlacks.not_isKnown ((h.finish hrun).2.1 r hr)

/-! ### Source texts -/

/-- The number of the line at which a run over lines stops for an error, and the error. -/
def firstFault? (ts : List String) : Option (Nat × AssemblyError) :=
  match (Assembly.feedAll ts).run {} with
  | .ok _ _ => none
  | .error e a => some (a.line, e)

/-- A line of a source text is refused for an error of its own, and all lines before it are taken. -/
inductive RefusedAt (src : String) (n : Nat) (e : AssemblyError) : Prop where
  | intro {before after : List String} {t : String} {a b : Assembly}
    (split : Text.lines src = before ++ t :: after) (number : before.length + 1 = n)
    (taken : Assembly.Takes {} before a) (refused : (Assembly.feed t).run a = .error e b)
    (own : e.OfLine n t)

/-- A line of a source text ends it, and no line up to there is refused. -/
inductive EndsAt (src : String) (n : Nat) : Prop where
  | intro {before after : List String} {t : String} {l : SourceLine}
    (split : Text.lines src = before ++ t :: after) (number : before.length + 1 = n)
    (read : SourceLine.ofText t = .ok l) (ends : l.statement = some (.directive .finish))
    (taken : firstFault? (before ++ [t]) = none)

/-- Source texts that are the same in their first lines. -/
def SameStart (n : Nat) (src src' : String) : Prop := (Text.lines src').take n = (Text.lines src).take n

/-- The line at which a source text is split stands at the same place in one that starts the same. -/
theorem SameStart.exists_split {src src' : String} {n : Nat} {before after : List String} {t : String}
    (h : SameStart n src src') (hsplit : Text.lines src = before ++ t :: after)
    (hn : before.length + 1 = n) : ∃ after', Text.lines src' = before ++ t :: after' := by
  have htake : (Text.lines src').take n = before ++ [t] := by
    rw [h, hsplit, List.append_cons]
    exact List.take_left' (List.length_append.trans hn)
  refine ⟨(Text.lines src').drop n, ?_⟩
  rw [List.append_cons, ← htake, List.take_append_drop]

/-- What becomes of a source text is settled by how the run over its lines goes. -/
theorem assemble_congr {src src' : String}
    (h : (Assembly.feedAll (Text.lines src')).run {} = (Assembly.feedAll (Text.lines src)).run {}) :
    assemble src' = assemble src := by
  have h' : Assembly.feedAll (Text.lines src') {} = Assembly.feedAll (Text.lines src) {} := h
  rw [assemble, assemble, h']

theorem firstFault?_eq_some_iff {ts : List String} {n : Nat} {e : AssemblyError} :
    firstFault? ts = some (n, e) ↔ ∃ a, (Assembly.feedAll ts).run {} = .error e a ∧ a.line = n := by
  unfold firstFault?
  split
  · rename_i hrun
    simp [hrun]
  · rename_i hrun
    simp [hrun, and_comm]

theorem firstFault?_eq_none_iff {ts : List String} :
    firstFault? ts = none ↔ ∃ a, (Assembly.feedAll ts).run {} = .ok () a := by
  unfold firstFault?
  split
  · rename_i hrun
    simp [hrun]
  · rename_i hrun
    simp [hrun]

/-- **A run that stops for an error** stops at a line that is refused. -/
theorem refusedAt_of_firstFault? {src : String} {n : Nat} {e : AssemblyError}
    (h : firstFault? (Text.lines src) = some (n, e)) : RefusedAt src n e := by
  obtain ⟨a, hrun, rfl⟩ := firstFault?_eq_some_iff.mp h
  have hreading := Assembly.reading {} (Text.lines src)
  rw [hrun] at hreading
  generalize hts : Text.lines src = ts at hreading
  cases hreading with
  | refused htakes herror after =>
    obtain ⟨hline, hown⟩ := Assembly.error_of_feed herror
    rw [← hline] at hown
    refine ⟨hts, ?_, htakes, herror, hown⟩
    rw [hline, htakes.line, Nat.zero_add]

/-- A line that is refused is where a run stops, whatever follows the line. -/
theorem RefusedAt.firstFault? {src src' : String} {n : Nat} {e : AssemblyError} (h : RefusedAt src n e)
    (hsame : SameStart n src src') : firstFault? (Text.lines src') = some (n, e) := by
  obtain ⟨hsplit, hn, htakes, herror, -⟩ := h
  obtain ⟨after', hsplit'⟩ := hsame.exists_split hsplit hn
  have hrun := htakes.run_feedAll_of_error herror after'
  rw [← hsplit'] at hrun
  refine firstFault?_eq_some_iff.mpr ⟨_, hrun, ?_⟩
  rw [(Assembly.error_of_feed herror).1, htakes.line, Nat.zero_add, hn]

/-- The error of a line that is refused carries its number, unless it names a symbol instead. -/
theorem RefusedAt.line? {src : String} {n : Nat} {e : AssemblyError} (h : RefusedAt src n e) :
    e.line? = if e.symbol?.isSome then none else some n := by
  obtain ⟨-, -, -, -, hown⟩ := h
  exact hown.line?

theorem assemble_of_firstFault? {src : String} {n : Nat} {e : AssemblyError}
    (h : firstFault? (Text.lines src) = some (n, e)) : assemble src = .error e := by
  obtain ⟨a, hrun, -⟩ := firstFault?_eq_some_iff.mp h
  have hrun' : Assembly.feedAll (Text.lines src) {} = .error e a := hrun
  rw [assemble, hrun']

/-- A line that ends a source text is where a run over it is over, whatever follows the line. -/
theorem EndsAt.run_feedAll {src src' : String} {n : Nat} (h : EndsAt src n)
    (hsame : SameStart n src src') :
    (Assembly.feedAll (Text.lines src')).run {} = (Assembly.feedAll (Text.lines src)).run {} := by
  obtain ⟨hsplit, hn, hread, hends, htaken⟩ := h
  obtain ⟨after', hsplit'⟩ := hsame.exists_split hsplit hn
  obtain ⟨a, hrun⟩ := firstFault?_eq_none_iff.mp htaken
  have hover := Assembly.run_feedAll_of_ends hread (beq_iff_eq.mpr hends) hrun
  rw [hsplit, hsplit', hover, hover]

/-- **A source text of which no line is refused** is assembled unless it lacks a name, and is refused
for a name that it lacks. -/
theorem assemble_of_no_fault {src : String} (h : firstFault? (Text.lines src) = none) :
    ∃ ls, counted (Text.lines src) = some ls ∧
      (∀ e, assemble src = .error e →
        ∃ x, e = .undefinedLabel x ∧ Program.Lacks (ls.flatMap SourceLine.items) x) ∧
      ∀ x, Program.Lacks (ls.flatMap SourceLine.items) x →
        ∃ y, assemble src = .error (.undefinedLabel y) := by
  obtain ⟨a, hrun⟩ := firstFault?_eq_none_iff.mp h
  have hassemble : assemble src = a.finish := by
    have hrun' : Assembly.feedAll (Text.lines src) {} = .ok () a := hrun
    rw [assemble, hrun']
  obtain ⟨ls, hls, hfollows⟩ := Follows.start.feedAll hrun
  rw [List.nil_append] at hfollows
  refine ⟨ls, hls, fun e he => hfollows.lacks_of_finish (hassemble.symm.trans he), fun x hx => ?_⟩
  cases hfin : a.finish with
  | ok m => exact absurd hfin (hfollows.finish_ne_ok hx m)
  | error e =>
    obtain ⟨y, rfl, -⟩ := hfollows.lacks_of_finish hfin
    exact ⟨y, hassemble.trans hfin⟩

/-- **An assembly stops at the first line that is refused**, for an error of that line, and a source text
ends at the first line that says so: what follows such a line is of no account. If no line is refused,
only a name that is used, not shared and no label can be in the way. -/
theorem assemble_stops_at_first_fault (src : String) :
    (∀ n e, firstFault? (Text.lines src) = some (n, e) →
      assemble src = .error e ∧ RefusedAt src n e ∧
      e.line? = (if e.symbol?.isSome then none else some n) ∧
      ∀ src', SameStart n src src' →
        firstFault? (Text.lines src') = some (n, e) ∧ assemble src' = .error e) ∧
    (∀ n, EndsAt src n → ∀ src', SameStart n src src' → assemble src' = assemble src) ∧
    (firstFault? (Text.lines src) = none → ∃ ls, counted (Text.lines src) = some ls ∧
      (∀ e, assemble src = .error e →
        ∃ x, e = .undefinedLabel x ∧ Program.Lacks (ls.flatMap SourceLine.items) x) ∧
      ∀ x, Program.Lacks (ls.flatMap SourceLine.items) x →
        ∃ y, assemble src = .error (.undefinedLabel y)) := by
  refine ⟨fun n e hfault => ?_, fun n hends src' hsame => ?_, assemble_of_no_fault⟩
  · have hrefused := refusedAt_of_firstFault? hfault
    refine ⟨assemble_of_firstFault? hfault, hrefused, hrefused.line?, fun src' hsame => ?_⟩
    have hfault' := hrefused.firstFault? hsame
    exact ⟨hfault', assemble_of_firstFault? hfault'⟩
  · exact assemble_congr (hends.run_feedAll hsame)

/-- A section that is begun twice, behind an empty line and a comment. -/
def twiceText : String := ".section a\n\n# once more\nx: .word y\n.section a\n.word"

/-- A text that goes on behind its end. -/
def endedText : String := ".section a\n.word x\nx: .end\n.section a"

/-- A name that is used and shared, and one that is only used. -/
def lackingText : String := ".section a\n.extern x\n.word x, y"

theorem assemble_stops_at_first_fault_texts :
    (RefusedAt twiceText 5 (.sectionDefined 5) ∧
      ∀ src', SameStart 5 twiceText src' → assemble src' = .error (.sectionDefined 5)) ∧
    (EndsAt endedText 3 ∧ ∀ src', SameStart 3 endedText src' → assemble src' = assemble endedText) ∧
    assemble lackingText = .error (.undefinedLabel "y") ∧
    ∃ ls, counted (Text.lines lackingText) = some ls ∧
      Program.Lacks (ls.flatMap SourceLine.items) "y" := by
  obtain ⟨htwice, -, -⟩ := assemble_stops_at_first_fault twiceText
  obtain ⟨-, hended, -⟩ := assemble_stops_at_first_fault endedText
  obtain ⟨-, -, hlacking⟩ := assemble_stops_at_first_fault lackingText
  refine ⟨?_, ?_, ?_⟩
  · obtain ⟨-, hrefused, -, hsame⟩ := htwice 5 (.sectionDefined 5) (by decide +kernel)
    exact ⟨hrefused, fun src' h => (hsame src' h).2⟩
  · have hlines : Text.lines endedText =
        [".section a", ".word x"] ++ "x: .end" :: [".section a"] := by decide +kernel
    have hread : SourceLine.ofText "x: .end" = .ok ⟨some "x", some (.directive .finish)⟩ := by
      decide +kernel
    have hends : EndsAt endedText 3 := ⟨hlines, rfl, hread, rfl, by decide +kernel⟩
    exact ⟨hends, hended 3 hends⟩
  · obtain ⟨ls, hls, hlacks, -⟩ := hlacking (by decide +kernel)
    have herror : (match assemble lackingText with
        | .error e => some e
        | .ok _ => none) = some (.undefinedLabel "y") := by decide +kernel
    cases hassemble : assemble lackingText with
    | ok m =>
      rw [hassemble] at herror
      cases herror
    | error e =>
      rw [hassemble] at herror
      obtain rfl := Option.some.inj herror
      obtain ⟨x, hx, hlack⟩ := hlacks _ hassemble
      obtain rfl := AssemblyError.undefinedLabel.inj hx
      exact ⟨rfl, ls, hls, hlack⟩

end Sx16
