/-
# The reserved symbol

Every table begins with the reserved symbol, and no line can define it, resize it or put another in its
place. What a line can do is mark it as exported or imported, by naming it in a declaration, as if it
were a label. So after any lines the first symbol is the reserved one, in no section, with value and
size 0, and its flags are what declarations of the reserved name made them. In an assembled module they
are just that, and the text of the module begins with them. The linker does not learn of the name
unless a module declared it; a module that was read from a text never did, because the reader passes
over the reserved name.

Key definitions: `Assembly.Reserves`, `Linkage.leftAll`, `Linkage.Lacks`.
Key theorems: `Assembly.reserves_fedAll`, `Linkage.Lacks.add`, `reserved_unless_declared`.
-/
import Sx16.Proofs.Assembly.Ordered
import Sx16.Proofs.Assembly.Written

namespace Sx16

/-! ### The first symbol of a table -/

theorem Symbol.line_reserved (e i : Bool) :
    (reserved e i).line = "UND:0:0:" ++ flagText e ++ ":" ++ flagText i ++ ":0:0:" := by
  cases e <;> cases i <;> decide +kernel

namespace SymbolTable

variable {t : SymbolTable} {name : String} {s : Symbol} {f : Symbol → Symbol}

/-- The first symbol is changed under its own name and under no other. -/
theorem byId?_zero_change (ht : t.Tidy) (h : t.byId? 0 = some s) (name : String) (f : Symbol → Symbol) :
    (t.change name f).byId? 0 = some (if s.name = name then f s else s) := by
  have hintern := byId?_intern_of_some h name
  have hmeaning := byId?_intern t name
  rw [change, byId?_modify, hintern]
  by_cases hname : s.name = name
  · have hget := ht.get?_of_byId? h
    rw [hname] at hget
    rw [meaning_of_some hget] at hmeaning
    have hid := (ht.intern name).number hmeaning
    have hzero := (ht.intern name).number hintern
    rw [if_pos (hid.symm.trans hzero), if_pos hname]
    rfl
  · have hne : (t.intern name).2 ≠ 0 := fun hid => by
      rw [hid, hintern] at hmeaning
      cases hmeaning
      exact hname (t.name_meaning name)
    rw [if_neg hne, if_neg hname]

end SymbolTable

/-! ### The reserved symbol of a run -/

/-- Whether the reserved name is among the names that a line declares, as exported or as imported. -/
def declaresReserved (declared : Program → List String) (t : String) : Bool :=
  (SourceLine.ofText t).toOption.any fun l => decide (Symbol.undefinedName ∈ declared l.items)

theorem declaresReserved_of_mem {declared : Program → List String} {t : String} {l : SourceLine}
    (ht : SourceLine.ofText t = .ok l) (hmem : Symbol.undefinedName ∈ declared l.items) :
    declaresReserved declared t = true := by
  rw [declaresReserved, ht]
  exact decide_eq_true hmem

namespace Assembly

/-- The first symbol of a run is the reserved one, and has a flag only if one of the lines declared
it so. Uses may be pending at it, as at any symbol. -/
def Reserves (a : Assembly) (ts : List String) : Prop :=
  ∃ e i us, a.symbols.byId? 0 = some { Symbol.reserved e i with uses := us } ∧
    (e = true → ∃ t ∈ ts, declaresReserved Program.exported t = true) ∧
    (i = true → ∃ t ∈ ts, declaresReserved Program.imported t = true)

variable {a : Assembly} {ts : List String} {t name : String} {f : Symbol → Symbol}

/-- A change that sets only declared flags of the reserved symbol, if it is the one that changes. -/
theorem Reserves.change (h : a.Reserves ts) (ht : a.symbols.Tidy)
    (hf : name = Symbol.undefinedName → ∀ e i us, ∃ e' i' us',
      f { Symbol.reserved e i with uses := us } = { Symbol.reserved e' i' with uses := us' } ∧
        (e' = true → e = true ∨ ∃ t ∈ ts, declaresReserved Program.exported t = true) ∧
        (i' = true → i = true ∨ ∃ t ∈ ts, declaresReserved Program.imported t = true)) :
    (a.change name f).Reserves ts := by
  obtain ⟨e, i, us, hs, he, hi⟩ := h
  have hget := SymbolTable.byId?_zero_change ht hs name f
  by_cases hname : name = Symbol.undefinedName
  · obtain ⟨e', i', us', hchanged, he', hi'⟩ := hf hname e i us
    refine ⟨e', i', us', ?_, fun h => (he' h).elim he id, fun h => (hi' h).elim hi id⟩
    rw [Assembly.change, hget, ← hchanged]
    exact congrArg some (if_pos hname.symm)
  · refine ⟨e, i, us, ?_, he, hi⟩
    rw [Assembly.change, hget]
    exact congrArg some (if_neg (Ne.symm hname))

theorem Reserves.isSection (h : a.Reserves ts) (ht : a.symbols.Tidy) :
    (a.symbols.meaning Symbol.undefinedName).isSection = true := by
  obtain ⟨e, i, us, hs, -, -⟩ := h
  have hget : a.symbols.get? Symbol.undefinedName = _ := ht.get?_of_byId? hs
  rw [SymbolTable.meaning_of_some hget]
  rfl

/-- What an edit of a line leaves of the reserved symbol. -/
theorem Reserves.edit {l : SourceLine} {b : Assembly} (h : a.Reserves ts) (hord : a.Ordered)
    (hmem : t ∈ ts) (ht : SourceLine.ofText t = .ok l) (hedit : Edit l a b) : b.Reserves ts := by
  have htidy := hord.tidy
  have hclose : a.closeSection.Reserves ts := by
    cases hc : a.current with
    | none =>
      rwa [Assembly.closeSection_of_none hc]
    | some home =>
      have hlt := (hord.opened hc).1
      rw [hord.closeSection_eq hc hlt]
      exact h.change htidy fun hname => absurd hname (hord.exists_symbol (Array.getElem_mem hlt)).1
  cases hedit with
  | mention name =>
    have hsame : (a.change name id).Reserves ts :=
      h.change htidy fun _ e i us => ⟨e, i, us, rfl, Or.inl, Or.inl⟩
    rwa [Assembly.change, SymbolTable.change_id] at hsame
  | label name hc hsec hdef himp =>
    refine h.change htidy fun hname => ?_
    rw [hname, h.isSection htidy] at hsec
    cases hsec
  | exports name hl himp =>
    refine h.change htidy fun hname e i us => ⟨true, i, us, rfl, fun _ => Or.inr ?_, Or.inl⟩
    exact ⟨t, hmem, declaresReserved_of_mem ht (hname ▸ hl)⟩
  | imports name hl hexp hdef =>
    refine h.change htidy fun hname e i us => ⟨e, true, us, rfl, Or.inl, fun _ => Or.inr ?_⟩
    exact ⟨t, hmem, declaresReserved_of_mem ht (hname ▸ hl)⟩
  | close => exact hclose
  | newSection name hnew =>
    obtain ⟨e, i, us, hs, he, hi⟩ := hclose
    have hlt := SymbolTable.byId?_lt hs
    refine ⟨e, i, us, ?_, he, hi⟩
    rw [Assembly.opened, SymbolTable.byId?_insert, if_neg (by omega), hs]

theorem Reserves.use (h : a.Reserves ts) (ht : a.symbols.Tidy) (name : String) (u : PendingUse) :
    (a.change name fun s => { s with uses := s.uses ++ [u] }).Reserves ts :=
  h.change ht fun _ e i us => ⟨e, i, us ++ [u], rfl, Or.inl, Or.inl⟩

theorem Reserves.fed (h : a.Reserves ts) (hord : a.Ordered) (hmem : t ∈ ts) :
    (a.fed t).Reserves ts := by
  refine (fed_of_edits (P := fun b => b.Ordered ∧ b.Reserves ts) ⟨hord, h⟩ ?_ ?_ ?_ ?_).2
  · exact fun ⟨hord, h⟩ => ⟨hord.count, h⟩
  · exact fun ht ⟨hord, h⟩ hedit => ⟨hord.edit hedit, h.edit hord hmem ht hedit⟩
  · exact fun name u ⟨hord, h⟩ => ⟨hord.use name u, h.use hord.tidy name u⟩
  · exact fun bytes ⟨hord, h⟩ hc hfits => ⟨hord.emitted hc hfits, h⟩

/-- **After any lines** the first symbol is the reserved one, and only declarations gave it flags. -/
theorem reserves_fedAll (ts : List String) : (fedAll ts).Reserves ts := by
  induction ts using List.reverseRecOn with
  | nil => exact ⟨false, false, [], rfl, nofun, nofun⟩
  | append_singleton ts t ih =>
    obtain ⟨e, i, us, hs, he, hi⟩ := ih
    rw [fedAll_concat]
    refine Reserves.fed ⟨e, i, us, hs, fun h => ?_, fun h => ?_⟩ (ordered_of_fedAll ts)
      (List.mem_append_right _ List.mem_cons_self)
    · obtain ⟨t', ht', hexp⟩ := he h
      exact ⟨t', List.mem_append_left _ ht', hexp⟩
    · obtain ⟨t', ht', himp⟩ := hi h
      exact ⟨t', List.mem_append_left _ ht', himp⟩

end Assembly

/-! ### The reserved symbol of a module -/

namespace ObjectModule

variable {m : ObjectModule}

/-- A module that shares no symbol of the reserved name. -/
def Reserves (m : ObjectModule) : Prop :=
  ∀ s ∈ m.symbols.toList, s.isLocal = false → s.name ≠ Symbol.undefinedName

/-- The text of a module begins with the reserved symbol. -/
theorem exists_text_of_reserved {e i : Bool} (ht : m.symbols.Tidy)
    (h : m.symbols.byId? 0 = some (Symbol.reserved e i)) : ∃ rest, m.text =
      "UND:0:0:" ++ Symbol.flagText e ++ ":" ++ Symbol.flagText i ++ ":0:0:\n" ++ rest := by
  have hget : m.symbols.get? Symbol.undefinedName = some (Symbol.reserved e i) := ht.get?_of_byId? h
  obtain ⟨ls, hls⟩ : ∃ ls, m.lines = (Symbol.reserved e i).line :: ls := by
    rw [lines, SymbolTable.sorted, hget]
    exact ⟨_, rfl⟩
  refine ⟨Text.unlines ls, ?_⟩
  rw [text, hls, Symbol.line_reserved, Text.unlines, List.map_cons, String.join_cons]
  simp only [String.append_assoc]
  rfl

theorem reserves_of_writable (h : m.Writable) : m.Reserves := by
  intro s hs hlocal
  rw [h.toList_symbols, List.mem_cons] at hs
  rcases hs with rfl | hs
  · cases hlocal
  · exact (h.symbols s hs).2

theorem reserves_of_assembled (h : Assembled m) : m.Reserves := by
  obtain ⟨is, t, hc, -⟩ := h.exists_compiled
  intro s hs hlocal hname
  have hget := hc.tidy.get?_eq_some_iff.mpr ⟨hs, hname⟩
  have hreserved : m.symbols.get? Symbol.undefinedName = _ := hc.tidy.get?_of_byId? hc.reserved
  rw [hreserved, Option.some.injEq] at hget
  subst hget
  cases hlocal

end ObjectModule

/-! ### What the linker learns of the reserved name -/

namespace Linkage

variable {l : Linkage} {m : ObjectModule} {name : String} {s : LinkSymbol}

/-- The linkage that an action leaves, whether it ended well or not. -/
def left {α : Type} (x : LinkM α) (l : Linkage) : Linkage :=
  match x.run l with
  | .ok _ l' => l'
  | .error _ l' => l'

/-- The linkage after modules, each of them added or refused. -/
def leftAll (ms : List ObjectModule) : Linkage := ms.foldl (fun l m => left (add m) l) {}

/-- No symbol has the name. -/
def Lacks (l : Linkage) (name : String) : Prop := ∀ s ∈ l.symbols, s.name ≠ name

namespace Lacks

theorem symbol? (h : l.Lacks name) : l.symbol? name = none :=
  List.find?_eq_none.mpr fun s hs => by simpa using h s hs

theorem merge (h : l.Lacks name) (hs : s.name ≠ name) : (left (Linkage.merge s) l).Lacks name := by
  have hnew : Lacks { l with symbols := l.symbols ++ [s] } name :=
    List.forall_mem_append.mpr ⟨h, List.forall_mem_singleton.mpr hs⟩
  have hput : Lacks { l with symbols := l.symbols.map fun (k : LinkSymbol) =>
      if k.name = s.name then s else k } name := by
    refine List.forall_mem_map.mpr fun k hk => ?_
    split
    · exact hs
    · exact h k hk
  unfold left
  rw [run_merge]
  cases entryOf LinkSymbol.name l.symbols s.name with
  | none => exact hnew
  | some k =>
    simp only
    by_cases hkind : k.isSection != s.isSection
    · rw [if_pos hkind]
      exact h
    · rw [if_neg hkind]
      by_cases hwanted : k.isOnlyImported && s.isOnlyExported
      · rw [if_pos hwanted]
        exact hput
      · rw [if_neg hwanted]
        by_cases htwice : k.isOnlyExported && s.isOnlyExported
        · rw [if_pos htwice]
          exact h
        · rw [if_neg htwice]
          exact h

theorem mergeAll {ss : List LinkSymbol} (h : l.Lacks name) (hss : ∀ s ∈ ss, s.name ≠ name) :
    (left (Linkage.mergeAll ss) l).Lacks name := by
  induction ss generalizing l with
  | nil => exact h
  | cons s ss ih =>
    have hmerged := h.merge (hss s List.mem_cons_self)
    unfold left at hmerged ⊢
    rw [Linkage.mergeAll, EStateM.run_bind]
    cases hrun : (Linkage.merge s).run l with
    | error e l' => simpa only [hrun] using hmerged
    | ok u l' =>
      rw [hrun] at hmerged
      exact ih hmerged fun s' hs' => hss s' (List.mem_cons_of_mem s hs')

theorem foldl_append (h : l.Lacks name) (origin : Nat) (b : String → UInt16) (fs : List SectionData) :
    (fs.foldl (append m origin b) l).Lacks name := by
  induction fs generalizing l with
  | nil => exact h
  | cons f fs ih =>
    refine ih (List.forall_mem_map.mpr fun s hs => ?_)
    split <;> exact h s hs

/-- A module that does not share the name does not bring it in. -/
theorem add (h : l.Lacks name)
    (hm : ∀ s ∈ m.symbols.toList, s.isLocal = false → s.name ≠ name) :
    (left (Linkage.add m) l).Lacks name := by
  have hmerged : (left (Linkage.mergeAll (m.declared l.modules))
      { l with modules := l.modules + 1 }).Lacks name := by
    refine mergeAll h (List.forall_mem_map.mpr fun s hs => ?_)
    obtain ⟨hs, hshared⟩ := List.mem_filter.mp hs
    exact hm s hs (by simpa using hshared)
  unfold left at hmerged ⊢
  rw [run_add_eq]
  cases hrun : (Linkage.mergeAll (m.declared l.modules)).run { l with modules := l.modules + 1 } with
  | error e l' => simpa only [hrun] using hmerged
  | ok u l' =>
    rw [hrun] at hmerged
    exact foldl_append hmerged _ _ _

end Lacks

theorem lacks_leftAll {ms : List ObjectModule} (hms : ∀ m ∈ ms, m.Reserves) :
    (leftAll ms).Lacks Symbol.undefinedName := by
  induction ms using List.reverseRecOn with
  | nil => exact nofun
  | append_singleton ms m ih =>
    rw [leftAll, List.foldl_append]
    exact Lacks.add (ih fun m' hm' => hms m' (List.mem_append_left _ hm'))
      (hms m (List.mem_append_right _ List.mem_cons_self))

end Linkage

/-! ### The reserved symbol everywhere -/

/-- **The reserved symbol stays as it was created unless it is declared.** After any lines the first
symbol is the reserved one, in no section and with value and size 0, and only declarations of its name
can have given it flags. In an assembled module it has just the flags that the source text declares,
and the text of the module begins with them. However modules are joined that are assembled from texts
without such a declaration or were read from text, the linker never learns of the name. -/
theorem reserved_unless_declared (ts : List String) {src : String} {ls : List SourceLine}
    {m : ObjectModule} {ms : List ObjectModule} (hls : counted (Text.lines src) = some ls)
    (hm : assemble src = .ok m)
    (hms : ∀ m' ∈ ms, Assembled m' ∨ ∃ text, ObjectModule.ofText text = .ok m') :
    (Assembly.fedAll ts).Reserves ts ∧
    (∃ e i, (e = true ↔ Symbol.undefinedName ∈ Program.exported (ls.flatMap SourceLine.items)) ∧
      (i = true ↔ Symbol.undefinedName ∈ Program.imported (ls.flatMap SourceLine.items)) ∧
      m.symbols.byId? 0 = some (Symbol.reserved e i) ∧ ∃ rest, m.text =
        "UND:0:0:" ++ Symbol.flagText e ++ ":" ++ Symbol.flagText i ++ ":0:0:\n" ++ rest) ∧
    (Linkage.leftAll ms).symbol? Symbol.undefinedName = none := by
  obtain ⟨a, t, -, hmade⟩ := madeOf_of_assemble hls hm
  have hreserved := hmade.reserved
  refine ⟨Assembly.reserves_fedAll ts, ⟨_, _, decide_eq_true_iff, decide_eq_true_iff, hreserved,
    ObjectModule.exists_text_of_reserved hmade.tidy hreserved⟩,
    (Linkage.lacks_leftAll fun m' hm' => ?_).symbol?⟩
  rcases hms m' hm' with h | ⟨text, h⟩
  · exact ObjectModule.reserves_of_assembled h
  · exact ObjectModule.reserves_of_writable (ObjectModule.writable_of_ofText h)

/-- Lines that name the reserved symbol as a label, as a section and in an operand. -/
def namingLines : List String := [".section a", "UND: halt", ".section UND", ".section b", ".word UND"]

/-- The lines of the source text of the wanting module. -/
def wantingLines : List SourceLine :=
  [⟨none, some (.directive (.imports ["y"]))⟩, ⟨none, some (.directive (.newSection "code"))⟩,
    ⟨none, some (.directive (.words [.symbol "y"]))⟩]

theorem reserved_unless_declared_naming :
    counted (Text.lines ".extern y\n.section code\n.word y") = some wantingLines ∧
    assemble ".extern y\n.section code\n.word y" = .ok wantingModule ∧
    (∃ us, (Assembly.fedAll namingLines).symbols.byId? 0 = some { Symbol.undefined with uses := us }) ∧
    (∃ rest, wantingModule.text = "UND:0:0:false:false:0:0:\n" ++ rest) ∧
    (Linkage.leftAll [wantingModule, givingModule]).symbol? Symbol.undefinedName = none := by
  have hls : counted (Text.lines ".extern y\n.section code\n.word y") = some wantingLines := by
    decide +kernel
  have hm : assemble ".extern y\n.section code\n.word y" = .ok wantingModule :=
    ok_of_toOption (by decide +kernel)
  obtain ⟨⟨e, i, us, hs, he, hi⟩, ⟨e', i', he', hi', -, rest, htext⟩, hlink⟩ :=
    reserved_unless_declared namingLines hls hm fun m' hm' => Or.inl (assembled_of_mem_two m' hm')
  have hnone : ∀ t ∈ namingLines, ¬ declaresReserved Program.exported t = true ∧
      ¬ declaresReserved Program.imported t = true := by decide +kernel
  have hexp : e = false := Bool.eq_false_iff.mpr fun h => by
    obtain ⟨t, ht, hdecl⟩ := he h
    exact (hnone t ht).1 hdecl
  have himp : i = false := Bool.eq_false_iff.mpr fun h => by
    obtain ⟨t, ht, hdecl⟩ := hi h
    exact (hnone t ht).2 hdecl
  have hexp' : e' = false := Bool.eq_false_iff.mpr fun h => absurd (he'.mp h) (by decide +kernel)
  have himp' : i' = false := Bool.eq_false_iff.mpr fun h => absurd (hi'.mp h) (by decide +kernel)
  subst hexp himp hexp' himp'
  exact ⟨hls, hm, ⟨us, hs⟩, ⟨rest, htext⟩, hlink⟩

/-- What a declaration of the reserved name alone is assembled to. -/
def declaringModule : ObjectModule where
  symbols := ⟨#[Symbol.reserved true false]⟩

theorem reserved_declared_exported : assemble ".global UND\n" = .ok declaringModule ∧
    declaringModule.symbols.byId? 0 ≠ some Symbol.undefined ∧
    declaringModule.text = "UND:0:0:true:false:0:0:\nend symbol table\nend file\n" ∧
    ((Linkage.leftAll [declaringModule]).symbol? Symbol.undefinedName).map LinkSymbol.exported =
      some true := by
  have hm : assemble ".global UND\n" = .ok declaringModule := ok_of_toOption (by decide +kernel)
  exact ⟨hm, by decide, by decide +kernel, by decide +kernel⟩

end Sx16
