/-
# Pending uses and their placeholders

A line notes its placeholders before its bytes are placed. If the bytes fit, the placeholders are among
them: a pending use belongs to the entry of the listing that its line made. If they do not fit, the
line is refused and its notes stay behind, although the section has no such placeholders; these may be
past the section's end, or among the bytes of a later line. That is the only way in which a pending use
loses its placeholder. Without it, whatever else was refused, finishing stays inside the sections and
changes only bytes of the lines that left the placeholders.

Key definitions: `Emission.Owns`, `LeftBehind`, `HasPlaceholder`, `FillsInside`.
Key theorems: `usesOf_fedAll`, `Emission.Owns.holds`, `pending_hasPlaceholder`.
-/
import Sx16.Proofs.Assembly.Ordered

namespace Sx16

open Assembly

variable {a b : Assembly} {l : SourceLine} {name : String}

/-! ### The uses of a name -/

namespace Assembly

/-- The pending uses of a name. -/
def usesOf (a : Assembly) (name : String) : List PendingUse := (a.symbols.meaning name).uses

theorem usesOf_change {f : Symbol → Symbol} {name' : String} (h : a.symbols.Tidy)
    (hf : ∀ s, (f s).name = s.name ∧ (f s).number = s.number)
    (huses : ∀ s, (f s).uses = s.uses) : (a.change name' f).usesOf name = a.usesOf name := by
  unfold usesOf change
  by_cases hname : name = name'
  · rw [hname, h.meaning_change_self hf, huses]
  · obtain ⟨n, hn⟩ := h.meaning_change_of_ne hf hname
    rw [hn]

theorem usesOf_edit (h : a.Ordered) (hab : Edit l a b) : b.usesOf name = a.usesOf name := by
  have hclose : a.closeSection.usesOf name = a.usesOf name := by
    cases hc : a.current with
    | none => rw [closeSection_of_none hc]
    | some home =>
      rw [h.closeSection_eq hc (h.opened hc).1]
      exact usesOf_change h.tidy (fun _ => ⟨rfl, rfl⟩) fun _ => rfl
  cases hab with
  | mention name' =>
    have hsame : (a.change name' id).usesOf name = a.usesOf name :=
      usesOf_change h.tidy (fun _ => ⟨rfl, rfl⟩) fun _ => rfl
    rwa [change, SymbolTable.change_id] at hsame
  | label name' => exact usesOf_change h.tidy (fun _ => ⟨rfl, rfl⟩) fun _ => rfl
  | exports name' => exact usesOf_change h.tidy (fun _ => ⟨rfl, rfl⟩) fun _ => rfl
  | imports name' => exact usesOf_change h.tidy (fun _ => ⟨rfl, rfl⟩) fun _ => rfl
  | close => exact hclose
  | newSection name' hnew =>
    rw [← hclose]
    have hget : (a.closeSection.opened name').symbols.get? name =
        if name = name' then some (a.closeSection.symbols.freshSection name')
        else a.closeSection.symbols.get? name := h.close.tidy.get?_insert hnew rfl name
    unfold usesOf
    by_cases hname : name = name'
    · rw [if_pos hname] at hget
      rw [hname] at hget ⊢
      rw [SymbolTable.meaning_of_none hnew, SymbolTable.meaning_of_some hget]
      rfl
    · rw [if_neg hname] at hget
      obtain ⟨n, hn⟩ := SymbolTable.exists_meaning_eq hget
      rw [hn]

/-- Edits change neither the listing nor the count of lines nor the uses of any name. -/
theorem usesOf_edits (h : a.Ordered) (hab : Edits l a b) :
    b.Ordered ∧ (b.listing = a.listing ∧ b.line = a.line) ∧
      ∀ name, b.usesOf name = a.usesOf name := by
  induction hab with
  | refl => exact ⟨h, ⟨rfl, rfl⟩, fun _ => rfl⟩
  | @tail b c _ hbc ih =>
    obtain ⟨hb, hsame, huses⟩ := ih
    refine ⟨hb.edit hbc, ?_, fun name => (usesOf_edit hb hbc).trans (huses name)⟩
    rw [← hsame.1, ← hsame.2]
    cases hbc with
    | close => simp
    | newSection name => simp [opened]
    | _ => exact ⟨rfl, rfl⟩

/-- Noting uses adds them at their names. -/
theorem mem_usesOf_recorded {us : List (String × PendingUse)} {u : PendingUse} (h : a.symbols.Tidy) :
    u ∈ (a.recorded us).usesOf name ↔ u ∈ a.usesOf name ∨ (name, u) ∈ us := by
  induction us generalizing a with
  | nil => simp [recorded]
  | cons x us ih =>
    obtain ⟨name', u'⟩ := x
    have hf : ∀ s : Symbol, ({ s with uses := s.uses ++ [u'] } : Symbol).name = s.name ∧
        ({ s with uses := s.uses ++ [u'] } : Symbol).number = s.number := fun _ => ⟨rfl, rfl⟩
    have hhead : u ∈ (a.change name' fun s => { s with uses := s.uses ++ [u'] }).usesOf name ↔
        u ∈ a.usesOf name ∨ (name, u) = (name', u') := by
      unfold usesOf change
      by_cases hname : name = name'
      · rw [hname, h.meaning_change_self hf]
        simp
      · obtain ⟨n, hn⟩ := h.meaning_change_of_ne hf hname
        rw [hn]
        simp [hname]
    rw [show a.recorded ((name', u') :: us) =
      (a.change name' fun s => { s with uses := s.uses ++ [u'] }).recorded us from rfl,
      ih (h.change name' hf), hhead, List.mem_cons, or_assoc]

end Assembly

/-! ### Where the placeholders of a line are -/

theorem Value.mem_uses {home : Nat} {offset : UInt16} {vs : List Value} {u : PendingUse}
    (h : (name, u) ∈ Value.uses home offset vs) :
    u.home = home ∧ ∃ p, u.offset = offset + UInt16.ofNat p ∧ p + 2 ≤ 2 * vs.length := by
  induction vs generalizing offset with
  | nil => cases h
  | cons v vs ih =>
    have hlater : (name, u) ∈ Value.uses home (offset + 2) vs →
        u.home = home ∧ ∃ p, u.offset = offset + UInt16.ofNat p ∧ p + 2 ≤ 2 * (v :: vs).length := by
      intro h
      obtain ⟨hhome, p, hp, hle⟩ := ih h
      refine ⟨hhome, 2 + p, ?_, by simp only [List.length_cons]; omega⟩
      rw [hp, UInt16.ofNat_add, UInt16.add_assoc]
      rfl
    cases v with
    | literal v => exact hlater h
    | symbol x =>
      rcases List.mem_cons.mp h with h | h
      · cases h
        exact ⟨rfl, 0, (UInt16.add_zero offset).symm, by simp only [List.length_cons]; omega⟩
      · exact hlater h

theorem Value.length_encoding (label : Option String) (vs : List Value) :
    (SourceLine.encoding ⟨label, some (.directive (.words vs))⟩).length = 2 * vs.length := by
  simp [SourceLine.encoding, Directive.encoding, List.length_flatMap, Word.bytes, Nat.mul_comm]

/-- The placeholders of a line are among its bytes. -/
theorem SourceLine.mem_uses {home : Nat} {offset : UInt16} {u : PendingUse}
    (h : (name, u) ∈ l.uses home offset) :
    u.home = home ∧ ∃ p, u.offset = offset + UInt16.ofNat p ∧ p + 2 ≤ l.encoding.length := by
  obtain ⟨label, statement⟩ := l
  cases statement with
  | none => cases h
  | some s =>
    cases s with
    | instruction i =>
      obtain ⟨f, hf, heq⟩ := Option.map_eq_some_iff.mp (Option.mem_toList.mp h)
      cases heq
      exact ⟨rfl, f.pos.toNat, by rw [UInt16.ofNat_toNat], Instruction.fixup_inside i f hf⟩
    | directive d =>
      cases d with
      | words values =>
        obtain ⟨hhome, p, hp, hle⟩ := Value.mem_uses h
        exact ⟨hhome, p, hp, by rwa [Value.length_encoding]⟩
      | _ => cases h

/-! ### Where a pending use comes from -/

/-- An entry was made by a line that left a pending use, and holds the line's bytes. -/
def Emission.Owns (ts : List String) (e : Emission) (name : String) (u : PendingUse) : Prop :=
  ∃ before t after l, ts = before ++ t :: after ∧ e.line = before.length + 1 ∧
    SourceLine.ofText t = .ok l ∧ e.bytes = l.encoding ∧ (name, u) ∈ l.uses e.home e.offset

/-- A line is refused since its bytes do not fit. -/
def Assembly.overflows (a : Assembly) (t : String) : Bool :=
  match (feed t).run a with
  | .error (.sectionTooLarge _) _ => true
  | _ => false

/-- A pending use was left by a line that was refused, since its bytes did not fit. -/
def LeftBehind (ts : List String) (name : String) (u : PendingUse) : Prop :=
  ∃ before t after l home, ts = before ++ t :: after ∧ SourceLine.ofText t = .ok l ∧
    (fedAll before).overflows t = true ∧ (fedAll before).current = some home ∧
    (name, u) ∈ l.uses home (fedAll before).location

theorem Emission.Owns.concat {ts : List String} {e : Emission} {u : PendingUse}
    (h : e.Owns ts name u) (t : String) : e.Owns (ts ++ [t]) name u := by
  obtain ⟨before, t', after, l, rfl, hrest⟩ := h
  exact ⟨before, t', after ++ [t], l, by simp, hrest⟩

theorem LeftBehind.concat {ts : List String} {u : PendingUse} (h : LeftBehind ts name u)
    (t : String) : LeftBehind (ts ++ [t]) name u := by
  obtain ⟨before, t', after, l, home, rfl, hrest⟩ := h
  exact ⟨before, t', after ++ [t], l, home, by simp, hrest⟩

/-- What a line does to the pending uses and to the listing: nothing, or its placeholders are noted
and its bytes are entered or refused. -/
theorem usesOf_fed (h : a.Ordered) (t : String) : (a.fed t).line = a.line + 1 ∧
    ((a.fed t).listing = a.listing ∧ (∀ name, (a.fed t).usesOf name = a.usesOf name) ∨
      ∃ l home, SourceLine.ofText t = .ok l ∧ a.current = some home ∧
        (∀ name u, u ∈ (a.fed t).usesOf name ↔ u ∈ a.usesOf name ∨ (name, u) ∈ l.uses home a.location) ∧
        ((a.fed t).listing = a.listing.push ⟨a.line + 1, home, a.location, l.encoding⟩ ∨
          (a.fed t).listing = a.listing ∧ a.overflows t = true)) := by
  cases ht : SourceLine.ofText t with
  | error fault =>
    rw [fed_of_fault ht]
    exact ⟨rfl, Or.inl ⟨rfl, fun _ => rfl⟩⟩
  | ok l =>
    have hnoted : ∀ {b home}, (enter l.label).run { a with line := a.line + 1 } = .ok () b →
        ∀ name u, u ∈ (b.recorded (l.uses home a.location)).usesOf name ↔
          u ∈ a.usesOf name ∨ (name, u) ∈ l.uses home a.location := by
      intro b home hb name u
      obtain ⟨hord, -, huses⟩ := usesOf_edits h.count ((editing_enter l _).ok hb)
      rw [mem_usesOf_recorded hord.tidy, huses name]
      rfl
    have heffect := effect_line l { a with line := a.line + 1 }
    have hrun := run_feed a t
    rw [ht] at hrun
    rw [fed, overflows, hrun]
    simp only
    generalize (enter l.label >>= fun _ => carryOut l.statement).run _ = r at heffect
    cases heffect with
    | edited hb =>
      obtain ⟨-, ⟨hlisting, hline⟩, huses⟩ := usesOf_edits h.count hb
      exact ⟨hline, Or.inl ⟨hlisting, huses⟩⟩
    | failed hb _ =>
      obtain ⟨-, ⟨hlisting, hline⟩, huses⟩ := usesOf_edits h.count hb
      exact ⟨hline, Or.inl ⟨hlisting, huses⟩⟩
    | @emitted b home hb hc _ =>
      have hsame := recorded_eq_of_enter hb (l.uses home a.location)
      refine ⟨?_, Or.inr ⟨l, home, rfl, hc, hnoted hb, Or.inl ?_⟩⟩
      · show (b.recorded _).line = _
        rw [hsame]
      · show (b.recorded _).listing.push ⟨(b.recorded _).line, home, (b.recorded _).location, _⟩ = _
        rw [hsame]
    | @refused b home hb hc _ =>
      have hsame := recorded_eq_of_enter hb (l.uses home a.location)
      refine ⟨?_, Or.inr ⟨l, home, rfl, hc, hnoted hb, Or.inr ⟨?_, rfl⟩⟩⟩
      · show (b.recorded _).line = _
        rw [hsame]
      · show (b.recorded _).listing = _
        rw [hsame]

theorem usesOf_start (name : String) : ({} : Assembly).usesOf name = [] := by
  show (SymbolTable.new.meaning name).uses = []
  rw [SymbolTable.meaning, SymbolTable.get?_new]
  split <;> rfl

/-- **Every pending use** belongs to an entry of the listing or was left behind. -/
theorem usesOf_fedAll (ts : List String) : (fedAll ts).line = ts.length ∧
    ∀ name u, u ∈ (fedAll ts).usesOf name →
      (∃ e ∈ (fedAll ts).listing, e.Owns ts name u) ∨ LeftBehind ts name u := by
  induction ts using List.reverseRecOn with
  | nil =>
    refine ⟨rfl, fun name u hu => ?_⟩
    rw [show fedAll [] = {} from rfl, usesOf_start] at hu
    cases hu
  | append_singleton ts t ih =>
    obtain ⟨hline, hold⟩ := ih
    obtain ⟨hcount, hstep⟩ := usesOf_fed (ordered_of_fedAll ts) t
    rw [fedAll_concat]
    refine ⟨by rw [hcount, hline, List.length_append, List.length_singleton], fun name u hu => ?_⟩
    rcases hstep with ⟨hlisting, huses⟩ | ⟨l, home, ht, hc, huses, hresult⟩
    · rw [huses] at hu
      rw [hlisting]
      exact (hold name u hu).imp (fun ⟨e, he, howns⟩ => ⟨e, he, howns.concat t⟩) fun h => h.concat t
    · rcases (huses name u).mp hu with hu | hu
      · refine (hold name u hu).imp (fun ⟨e, he, howns⟩ => ⟨e, ?_, howns.concat t⟩) fun h => h.concat t
        rcases hresult with hlisting | ⟨hlisting, -⟩
        · rw [hlisting]
          exact Array.mem_push_of_mem _ he
        · rwa [hlisting]
      · rcases hresult with hlisting | ⟨-, hover⟩
        · rw [hlisting]
          exact Or.inl ⟨_, Array.mem_push_self, ts, t, [], l, rfl, by rw [hline], ht, rfl, hu⟩
        · exact Or.inr ⟨ts, t, [], l, home, rfl, ht, hover, hc, hu⟩

/-! ### Where an owned placeholder is -/

theorem covers_le {lo hi : Nat} {es : List Emission} (h : Covers lo es hi) :
    lo ≤ hi ∧ ∀ e ∈ es, lo ≤ e.offset.toNat ∧ e.offset.toNat + e.bytes.length ≤ hi := by
  induction es generalizing lo with
  | nil => exact ⟨Nat.le_of_eq h, by simp⟩
  | cons x es ih =>
    obtain ⟨hle, hall⟩ := ih h.2
    refine ⟨by omega, fun e he => ?_⟩
    rcases List.mem_cons.mp he with rfl | he
    · have := h.1
      omega
    · have := hall e he
      omega

/-- Entries that cover a section lie apart. -/
theorem pairwise_of_covers {lo hi : Nat} {es : List Emission} (h : Covers lo es hi) :
    es.Pairwise fun e e' => e.offset.toNat + e.bytes.length ≤ e'.offset.toNat := by
  induction es generalizing lo with
  | nil => exact List.Pairwise.nil
  | cons x es ih =>
    refine List.pairwise_cons.mpr ⟨fun e he => ?_, ih h.2⟩
    have hle := (covers_le h.2).2 e he
    rw [h.1]
    exact hle.1

/-- The placeholder of a use is among the bytes of an entry. -/
structure Emission.Holds (e : Emission) (u : PendingUse) : Prop where
  home : u.home = e.home
  start : e.offset.toNat ≤ u.offset.toNat
  stop : u.offset.toNat + 2 ≤ e.offset.toNat + e.bytes.length

namespace Assembly.Stocked

variable {e e' : Emission}

theorem exists_covers (h : a.Stocked) (he : e ∈ a.listing) :
    Covers 0 (a.entriesOf e.home) (a.sizeAt e.home) ∧ e ∈ a.entriesOf e.home := by
  have hlt := h.homes e he
  refine ⟨?_, List.mem_filter.mpr ⟨Array.mem_toList_iff.mpr he, beq_self_eq_true _⟩⟩
  have := (h.listed (Array.getElem?_eq_getElem hlt)).1
  simpa [sizeAt, hlt] using this

theorem stop_le (h : a.Stocked) (he : e ∈ a.listing) :
    e.offset.toNat + e.bytes.length ≤ a.sizeAt e.home := by
  obtain ⟨hcovers, hmem⟩ := h.exists_covers he
  exact ((covers_le hcovers).2 e hmem).2

theorem sizeAt_le (h : a.Stocked) (he : e ∈ a.listing) : a.sizeAt e.home ≤ sectionLimit := by
  have hlt := h.homes e he
  simpa [sizeAt, hlt] using h.limit _ (Array.getElem_mem hlt)

/-- Two entries of a section are one or lie apart. -/
theorem apart (h : a.Stocked) (he : e ∈ a.listing) (he' : e' ∈ a.listing) (hhome : e'.home = e.home) :
    e' = e ∨ e'.offset.toNat + e'.bytes.length ≤ e.offset.toNat ∨
      e.offset.toNat + e.bytes.length ≤ e'.offset.toNat := by
  obtain ⟨hcovers, hmem⟩ := h.exists_covers he
  have hmem' := (h.exists_covers he').2
  rw [hhome] at hmem'
  have hpair := List.pairwise_iff_getElem.mp (pairwise_of_covers hcovers)
  generalize a.entriesOf e.home = es at hmem hmem' hpair
  obtain ⟨i, hi, rfl⟩ := List.mem_iff_getElem.mp hmem
  obtain ⟨j, hj, rfl⟩ := List.mem_iff_getElem.mp hmem'
  rcases Nat.lt_trichotomy i j with hij | rfl | hij
  · exact Or.inr (Or.inr (hpair i j hi hj hij))
  · exact Or.inl rfl
  · exact Or.inr (Or.inl (hpair j i hj hi hij))

end Assembly.Stocked

/-- A line's placeholders are among the bytes of its entry. -/
theorem Emission.Owns.holds {ts : List String} {e : Emission} {u : PendingUse}
    (howns : e.Owns ts name u) (h : a.Stocked) (he : e ∈ a.listing) : e.Holds u := by
  obtain ⟨before, t, after, l, -, -, -, hbytes, hu⟩ := howns
  obtain ⟨hhome, p, hp, hle⟩ := SourceLine.mem_uses hu
  have hstop := h.stop_le he
  have hlimit := h.sizeAt_le he
  unfold sectionLimit at hlimit
  rw [hbytes] at hstop
  have hoffset : u.offset.toNat = e.offset.toNat + p := by
    rw [hp, UInt16.toNat_add, UInt16.toNat_ofNat']
    omega
  refine ⟨hhome, by omega, ?_⟩
  rw [hbytes]
  omega

/-- A pending use has its placeholder: it is among the bytes of the line that left the use, inside the
section, and no other line has a byte of it. -/
def HasPlaceholder (ts : List String) (name : String) (u : PendingUse) : Prop :=
  ∃ e ∈ (fedAll ts).listing, e.Owns ts name u ∧ e.Holds u ∧
    u.offset.toNat + 2 ≤ (fedAll ts).sizeAt u.home ∧
    ∀ e' ∈ (fedAll ts).listing, e'.home = u.home →
      e' = e ∨ e'.offset.toNat + e'.bytes.length ≤ u.offset.toNat ∨ u.offset.toNat + 2 ≤ e'.offset.toNat

theorem hasPlaceholder_or_leftBehind {ts : List String} {u : PendingUse}
    (hu : u ∈ (fedAll ts).usesOf name) : HasPlaceholder ts name u ∨ LeftBehind ts name u := by
  have h := (ordered_of_fedAll ts).toStocked
  refine ((usesOf_fedAll ts).2 name u hu).imp_left fun ⟨e, he, howns⟩ => ?_
  have hholds := howns.holds h he
  have hstop := hholds.stop
  have hstart := hholds.start
  refine ⟨e, he, howns, hholds, ?_, fun e' he' hhome => ?_⟩
  · rw [hholds.home]
    exact Nat.le_trans hstop (h.stop_le he)
  · rcases h.apart he he' (hhome.trans hholds.home) with heq | hle | hle
    · exact Or.inl heq
    · exact Or.inr (Or.inl (by omega))
    · exact Or.inr (Or.inr (by omega))

/-! ### Finishing -/

theorem Assembly.usesOf_name {s : Symbol} (h : a.symbols.Tidy) (hs : s ∈ a.symbols.toList) :
    a.usesOf s.name = s.uses := by
  rw [usesOf, SymbolTable.meaning_of_some (h.get?_eq_some_iff.mpr ⟨hs, rfl⟩)]

/-- Only a placeholder that is filled is ever out of bounds. -/
theorem Assembly.finish_ne_outOfBounds (h : a.closeSection.overrun? = none) (n i : Nat) :
    a.finish ≠ .error (.outOfBounds n i) := by
  have hresolve : ∀ (t : SymbolTable) (s : Symbol), s.resolve t ≠ .error (.outOfBounds n i) := by
    intro t s
    unfold Symbol.resolve
    split
    · simp
    · split
      · simp
      · split <;> simp
  have hall : ∀ (t : SymbolTable) (ss : List Symbol), resolveAll t ss ≠ .error (.outOfBounds n i) := by
    intro t ss
    induction ss with
    | nil => simp [resolveAll]
    | cons s ss ih =>
      rw [resolveAll]
      cases hs : s.resolve t with
      | error e => exact fun he => hresolve t s (hs.trans he)
      | ok rs =>
        cases hss : resolveAll t ss with
        | error e => exact fun he => ih (hss.trans he)
        | ok rs' => exact nofun
  unfold finish
  cases hrs : resolveAll a.closeSection.symbols a.closeSection.symbols.toList with
  | error e =>
    intro he
    simp only [hrs] at he
    exact hall _ _ (hrs.trans (congrArg _ (Except.error.inj he)))
  | ok rs =>
    simp only [hrs, h]
    exact nofun

/-- Finishing a section changes a byte only if a placeholder there is resolved. -/
theorem SectionData.exists_of_resolved_ne {f : SectionData} {rs : List Resolution} {p : Nat}
    (h : (f.resolved rs).bytes[p]? ≠ f.bytes[p]?) :
    ∃ r ∈ rs, r.relocation.offset.toNat ≤ p ∧ p < r.relocation.offset.toNat + 2 := by
  have hbytes : (f.resolved rs).bytes =
      rs.foldl (fun bs r => addWord bs r.relocation.offset.toNat r.addend) f.bytes := rfl
  rw [hbytes] at h
  clear hbytes
  generalize f.bytes = bs at h
  induction rs generalizing bs with
  | nil => exact absurd rfl h
  | cons r rs ih =>
    by_cases hr : r.relocation.offset.toNat ≤ p ∧ p < r.relocation.offset.toNat + 2
    · exact ⟨r, List.mem_cons_self, hr⟩
    · rw [List.foldl_cons] at h
      have hsame : (addWord bs r.relocation.offset.toNat r.addend)[p]? = bs[p]? :=
        getElem?_addWord_of_ne _ (by omega) (by omega)
      rw [← hsame] at h
      obtain ⟨x, hx, hin⟩ := ih _ h
      exact ⟨x, List.mem_cons_of_mem _ hx, hin⟩

/-- What is resolved at the end are the pending uses. -/
theorem Assembly.Ordered.exists_usesOf_of_resolveAll (h : a.Ordered) {rs : List Resolution}
    (hrs : resolveAll a.closeSection.symbols a.closeSection.symbols.toList = .ok rs)
    {r : Resolution} (hr : r ∈ rs) :
    ∃ name, ∃ u ∈ a.usesOf name, r.home = u.home ∧ r.relocation.offset = u.offset := by
  obtain ⟨s, hs, rs', hrs', hr⟩ := exists_symbol_of_resolveAll hrs hr
  obtain ⟨u, hu, hhome, hoffset, -⟩ := Symbol.exists_use_of_resolve hrs' hr
  refine ⟨s.name, u, ?_, hhome, hoffset⟩
  rw [← usesOf_edit (l := ⟨none, none⟩) h .close, usesOf_name h.close.tidy hs]
  exact hu

/-- Finishing stays inside the sections and changes nothing but placeholders of the lines that left
them. -/
structure FillsInside (ts : List String) (m : ObjectModule) : Prop where
  relocations : ∀ f ∈ m.sections, ∀ r ∈ f.relocations, r.offset.toNat + 2 ≤ f.bytes.size
  bytes : ∀ home f g, (fedAll ts).sections[home]? = some f → m.sections[home]? = some g →
    ∀ p, g.bytes[p]? ≠ f.bytes[p]? → ∃ name u, HasPlaceholder ts name u ∧ u.home = home ∧
      u.offset.toNat ≤ p ∧ p < u.offset.toNat + 2

/-- With nothing left behind, every placeholder that is filled is there. -/
theorem overrun?_of_fedAll {ts : List String}
    (hfree : ∀ name, ∀ u ∈ (fedAll ts).usesOf name, ¬ LeftBehind ts name u) :
    (fedAll ts).closeSection.overrun? = none := by
  have h := ordered_of_fedAll ts
  refine List.findSome?_eq_none_iff.mpr fun u hu => if_pos ?_
  obtain ⟨s, hs, hu⟩ := List.mem_flatMap.mp hu
  rw [← usesOf_name h.close.tidy (List.mem_filter.mp hs).1,
    usesOf_edit (l := ⟨none, none⟩) h .close] at hu
  rcases hasPlaceholder_or_leftBehind hu with ⟨-, -, -, -, hin, -⟩ | hleft
  · rw [sizeAt_closeSection]
    exact hin
  · exact absurd hleft (hfree _ u hu)

theorem fillsInside_of_finish {ts : List String} {m : ObjectModule}
    (hfree : ∀ name, ∀ u ∈ (fedAll ts).usesOf name, ¬ LeftBehind ts name u)
    (hm : (fedAll ts).finish = .ok m) : FillsInside ts m := by
  have h := ordered_of_fedAll ts
  obtain ⟨rs, hrs, -, rfl⟩ := finish_eq_ok_iff.mp hm
  have hheld : ∀ r ∈ rs, ∃ name u, HasPlaceholder ts name u ∧ r.home = u.home ∧
      r.relocation.offset = u.offset := by
    intro r hr
    obtain ⟨name, u, hu, hhome, hoffset⟩ := h.exists_usesOf_of_resolveAll hrs hr
    exact ⟨name, u, (hasPlaceholder_or_leftBehind hu).resolve_right (hfree name u hu), hhome, hoffset⟩
  have hget : ∀ {home : Nat} {g : SectionData},
      ((fedAll ts).closeSection.sections.toList.zipIdx.map fun p =>
        p.1.resolved (rs.filter (·.home == p.2)))[home]? = some g →
      ∃ f, (fedAll ts).sections[home]? = some f ∧ f.resolved (rs.filter (·.home == home)) = g := by
    intro home g hg
    rw [getElem?_map_resolved _ fun home => rs.filter (·.home == home), sections_closeSection] at hg
    exact Option.map_eq_some_iff.mp hg
  constructor
  · intro g hg r hr
    obtain ⟨home, hhome⟩ := List.mem_iff_getElem?.mp hg
    obtain ⟨f, hf, rfl⟩ := hget hhome
    rcases SectionData.mem_relocations_resolved.mp hr with hr | ⟨x, hx, rfl⟩
    · rw [h.bare f (Array.mem_of_getElem? hf)] at hr
      cases hr
    · obtain ⟨hx, hxhome⟩ := List.mem_filter.mp hx
      obtain ⟨name, u, ⟨-, -, -, -, hin, -⟩, hu, hoffset⟩ := hheld x hx
      rw [← hu, beq_iff_eq.mp hxhome, sizeAt, hf] at hin
      rw [hoffset, SectionData.size_resolved]
      exact hin
  · intro home f g hf hg p hne
    obtain ⟨f', hf', rfl⟩ := hget hg
    obtain rfl : f = f' := Option.some.inj (hf.symm.trans hf')
    obtain ⟨r, hr, hle, hlt⟩ := SectionData.exists_of_resolved_ne hne
    obtain ⟨hr, hrhome⟩ := List.mem_filter.mp hr
    obtain ⟨name, u, hu, huhome, hoffset⟩ := hheld r hr
    rw [hoffset] at hle hlt
    exact ⟨name, u, hu, huhome.symm.trans (beq_iff_eq.mp hrhome), hle, hlt⟩

/-- **After any lines a pending use has its placeholder, or it was left behind by a line that was
refused as too large.** With no use left behind, finishing never leaves a section, and what it changes
are placeholders of the lines that left them. -/
theorem pending_hasPlaceholder (ts : List String) :
    (∀ name, ∀ u ∈ (fedAll ts).usesOf name, HasPlaceholder ts name u ∨ LeftBehind ts name u) ∧
      ((∀ name, ∀ u ∈ (fedAll ts).usesOf name, ¬ LeftBehind ts name u) →
        (∀ size index, (fedAll ts).finish ≠ .error (.outOfBounds size index)) ∧
          ∀ m, (fedAll ts).finish = .ok m → FillsInside ts m) :=
  ⟨fun _ _ hu => hasPlaceholder_or_leftBehind hu, fun hfree =>
    ⟨finish_ne_outOfBounds (overrun?_of_fedAll hfree), fun _ hm => fillsInside_of_finish hfree hm⟩⟩

theorem pending_hasPlaceholder_mixed :
    (⟨0, 0, .symbolWord⟩ : PendingUse) ∈ (fedAll mixedLines).usesOf "y" ∧
    HasPlaceholder mixedLines "y" ⟨0, 0, .symbolWord⟩ ∧
      (fedAll mixedLines).finish = .ok mixedModule ∧ FillsInside mixedLines mixedModule := by
  have huse : (⟨0, 0, .symbolWord⟩ : PendingUse) ∈ (fedAll mixedLines).usesOf "y" := by decide +kernel
  have hm : (fedAll mixedLines).finish = .ok mixedModule := ok_of_toOption (by decide +kernel)
  have hfit : ∀ k < 7, (fedAll (mixedLines.take k)).overflows (mixedLines.getD k "") = false := by
    decide +kernel
  have hfree : ∀ name, ∀ u ∈ (fedAll mixedLines).usesOf name, ¬ LeftBehind mixedLines name u := by
    rintro name u - ⟨before, t, after, l, home, hts, -, hover, -⟩
    have hlen : before.length < 7 := by
      have := congrArg List.length hts
      simp only [mixedLines, List.length_append, List.length_cons, List.length_nil] at this
      omega
    have := hfit before.length hlen
    rw [hts] at this
    simp [hover] at this
  obtain ⟨hheld, hfills⟩ := pending_hasPlaceholder mixedLines
  exact ⟨huse, (hheld "y" _ huse).resolve_right (hfree "y" _ huse), hm, (hfills hfree).2 mixedModule hm⟩

/-! ### A use that is left behind -/

namespace Assembly

theorem fed_of_directive {t : String} {d : Directive}
    (h : SourceLine.ofText t = .ok ⟨none, some (.directive d)⟩) (a : Assembly) :
    a.fed t = match (direct d).run { a with line := a.line + 1 } with
      | .ok _ b => b
      | .error _ b => b := by
  cases hr : (direct d).run { a with line := a.line + 1 } <;>
    simp only [fed, run_feed_of_directive h, hr]

/-- Exporting a name leaves the sections alone, whether the name may be exported or not. -/
theorem sections_of_export {t : String} {x : String}
    (h : SourceLine.ofText t = .ok ⟨none, some (.directive (.exports [x]))⟩) :
    (a.fed t).current = a.current ∧ ∀ home, (a.fed t).sizeAt home = a.sizeAt home := by
  rw [fed_of_directive h, direct, EStateM.run_bind, run_markExported_cons]
  by_cases himp : (a.symbols.meaning x).imported
  · rw [if_pos himp]
    exact ⟨rfl, fun _ => rfl⟩
  · rw [if_neg himp]
    exact ⟨rfl, fun _ => rfl⟩

theorem fed_of_words {t : String} {values : List Value} {home : Nat}
    (h : SourceLine.ofText t = .ok ⟨none, some (.directive (.words values))⟩)
    (hc : a.current = some home) (hfull : sectionLimit < a.sizeAt home + 2 * values.length) :
    a.fed t = ({ a with line := a.line + 1 } : Assembly).recorded (Value.uses home a.location values) := by
  have hrec := recorded_eq ({ a with line := a.line + 1 } : Assembly) (Value.uses home a.location values)
  obtain ⟨symbols, sections, current, location, line, listing⟩ := a
  obtain rfl : current = some home := hc
  rw [fed_of_directive h, run_words none]
  simp only
  rw [EStateM.run_bind, hrec, run_emit_of_lt rfl]
  rw [Value.length_encoding]
  exact hfull

/-- A word that does not fit leaves a use that is not inside the section. -/
theorem exists_usesOf_outside (h : a.Ordered) {t x : String} {home : Nat}
    (ht : SourceLine.ofText t = .ok ⟨none, some (.directive (.words [.symbol x]))⟩)
    (hc : a.current = some home) (hfull : sectionLimit < a.sizeAt home + 2) :
    ∃ u ∈ (a.fed t).usesOf x, (a.fed t).sizeAt u.home < u.offset.toNat + 2 := by
  have hlocation := (h.opened hc).2
  rw [fed_of_words ht hc hfull]
  refine ⟨⟨a.location, home, .symbolWord⟩, ?_, ?_⟩
  · exact (mem_usesOf_recorded h.count.tidy).mpr (Or.inr List.mem_cons_self)
  · show a.sizeAt home < a.location.toNat + 2
    omega

end Assembly

/-- Lines after which a section has room for one more byte. -/
def fillingLines : List String := [".section a", ".skip 65534"]

/-- Lines of which the last is refused as too large. -/
def crowdedLines : List String := fillingLines ++ [".global x"] ++ [".word x"]

theorem sizeAt_filling : (fedAll fillingLines).current = some 0 ∧ (fedAll fillingLines).sizeAt 0 = 65534 := by
  have hnew : SourceLine.ofText ".section a" = .ok ⟨none, some (.directive (.newSection "a"))⟩ :=
    ok_of_toOption (by decide +kernel)
  have hskip : SourceLine.ofText ".skip 65534" = .ok ⟨none, some (.directive (.skip 65534))⟩ :=
    ok_of_toOption (by decide +kernel)
  have hopened : fedAll [".section a"] = ({ line := 1 } : Assembly).opened "a" :=
    (fed_of_directive hnew {}).trans rfl
  have hcurrent : (({ line := 1 } : Assembly).opened "a").current = some 0 := rfl
  have hfilled := run_feed_of_skip hskip hcurrent (by decide)
  rw [show fillingLines = [".section a"] ++ [".skip 65534"] from rfl, fedAll_concat, hopened, fed,
    hfilled]
  refine ⟨rfl, ?_⟩
  simp only
  rw [sizeAt_emitted _ (by decide), List.length_replicate]
  rfl

theorem pending_outside_crowded : ∃ u ∈ (fedAll crowdedLines).usesOf "x",
    (fedAll crowdedLines).sizeAt u.home < u.offset.toNat + 2 := by
  have hexport : SourceLine.ofText ".global x" = .ok ⟨none, some (.directive (.exports ["x"]))⟩ :=
    ok_of_toOption (by decide +kernel)
  have hword : SourceLine.ofText ".word x" = .ok ⟨none, some (.directive (.words [.symbol "x"]))⟩ :=
    ok_of_toOption (by decide +kernel)
  obtain ⟨hc, hsize⟩ := sizeAt_filling
  obtain ⟨hcurrent, hsizes⟩ := sections_of_export (a := fedAll fillingLines) hexport
  have hord := ordered_of_fedAll (fillingLines ++ [".global x"])
  rw [crowdedLines, fedAll_concat]
  rw [← fedAll_concat] at hcurrent hsizes
  exact exists_usesOf_outside hord hword (hcurrent.trans hc) (by rw [hsizes, hsize]; decide)

end Sx16
