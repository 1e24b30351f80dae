/-
# What the tools deliver

The assembler and the linker do what assembling and linking a text do, between reading files and
printing what they are about. Printing never changes what becomes of a run, so a run is known by the
value that it yields, if it yields one. It writes its file as its last act: where anything is wrong
before, or the file cannot be created, it ends with status 1 and leaves all files as they are. A file that
has been created and refuses a part of its contents is left with what stands before that part.

Key definitions: `Console.Yields`, `Aftermath.Delivers`, `AssemblerOptions.Makes`,
`LinkerOptions.Asks`, `LinkerOptions.Makes`.
Key theorems: `Console.yields_bind`, `yields_assembleFile`, `yields_linkFiles`,
`Outcome.delivers_ofConsole`, `tools_deliver`, `tools_deliver_full`.
-/
import Sx16.Config.Table
import Sx16.Proofs.Link.Relinked
import Sx16.Proofs.Source.Tokens
import Sx16.Tool.Assembler
import Sx16.Tool.Linker

namespace Sx16
namespace Tool

/-! ### What a tool at work yields -/

namespace Console

variable {α β : Type} {x : Console α} {f : α → Console β} {r : Option α} {g : α → Option β}

/-- The value that a tool at work ends with, if it does not stop with a report. -/
def value? (x : Console α) (printed : Array Output) : Option α :=
  match x printed with
  | .ok a _ => some a
  | .error _ _ => none

/-- A tool at work ends with a value, or stops with a report, whatever was printed before. -/
def Yields (x : Console α) (r : Option α) : Prop := ∀ printed, x.value? printed = r

theorem yields_pure (a : α) : Yields (pure a) (some a) := fun _ => rfl

theorem yields_throw (report : String) : Yields (throw report : Console α) none := fun _ => rfl

theorem yields_print (s : String) : Yields (print s) (some ()) := fun _ => rfl

theorem yields_printLine (s : String) : Yields (printLine s) (some ()) := fun _ => rfl

/-- What comes after a part that ends with a value. -/
theorem yields_bind_of_some {a : α} {r : Option β} (hx : Yields x (some a)) (hf : Yields (f a) r) :
    Yields (x >>= f) r := by
  intro printed
  have hvalue := hx printed
  unfold value? at hvalue
  change (match EStateM.bind x f printed with
    | .ok b _ => some b
    | .error _ _ => none) = _
  unfold EStateM.bind
  cases hrun : x printed with
  | error report printed' =>
    rw [hrun] at hvalue
    cases hvalue
  | ok a' printed' =>
    rw [hrun] at hvalue
    cases hvalue
    exact hf printed'

/-- Nothing comes after a part that stops. -/
theorem yields_bind_of_none (hx : Yields x none) : Yields (x >>= f) none := by
  intro printed
  have hvalue := hx printed
  unfold value? at hvalue
  change (match EStateM.bind x f printed with
    | .ok b _ => some b
    | .error _ _ => none) = _
  unfold EStateM.bind
  cases hrun : x printed with
  | error report printed' => rfl
  | ok a printed' =>
    rw [hrun] at hvalue
    cases hvalue

/-- **One part after the other** yields what the second part yields with the value of the first. -/
theorem yields_bind (hx : Yields x r) (hf : ∀ a, Yields (f a) (g a)) :
    Yields (x >>= f) (r.bind g) := by
  cases r with
  | none => exact yields_bind_of_none hx
  | some a => exact yields_bind_of_some hx (hf a)

theorem yields_require {ε : Type} (report : ε → String) (e : Except ε α) :
    Yields (require report e) e.toOption := by
  cases e with
  | error e => exact yields_throw (report e)
  | ok a => exact yields_pure a

end Console

open Console

/-! ### Files that are read -/

/-- The module in a file. -/
def moduleIn? (files : Files) (path : String) : Option ObjectModule :=
  (readText files path).toOption.bind fun t => (ObjectModule.ofText t).toOption

variable {files : Files} {path t : String}

/-- A file is read as a text if it holds the bytes of the text. -/
theorem readText_eq_some_iff : (readText files path).toOption = some t ↔
    files path = .ok t.toUTF8 := by
  unfold readText
  cases files path with
  | error o => exact ⟨nofun, nofun⟩
  | ok bytes =>
    rw [Except.ok.injEq, ← fromUTF8?_eq_some_iff]
    simp only
    cases String.fromUTF8? bytes with
    | none => exact ⟨nofun, nofun⟩
    | some s => exact Iff.rfl

theorem yields_readModules (files : Files) (paths : List String) :
    Yields (readModules files paths) (paths.mapM (moduleIn? files)) := by
  induction paths with
  | nil => exact yields_pure []
  | cons path paths ih =>
    have hsteps : (path :: paths).mapM (moduleIn? files) =
        (readText files path).toOption.bind fun t => (ObjectModule.ofText t).toOption.bind fun m =>
          (paths.mapM (moduleIn? files)).bind fun ms => some (m :: ms) := by
      rw [List.mapM_cons]
      exact Option.bind_assoc _ _ _
    rw [hsteps]
    unfold readModules
    refine yields_bind_of_some (yields_printLine _) ?_
    refine yields_bind (yields_require _ _) fun t => ?_
    refine yields_bind (yields_require _ _) fun m => ?_
    exact yields_bind ih fun ms => yields_pure (m :: ms)

theorem loadPlaces_eq_some_iff {config : ConfigReader} {places : Named UInt16} :
    (loadPlaces config files path).toOption = some places ↔
      ∃ bytes table, files path = .ok bytes ∧ config.places bytes = .ok table ∧
        places = Keyed.ofList (byName table) := by
  unfold loadPlaces readConfiguration
  cases files path with
  | error o =>
    cases o <;>
    · refine ⟨fun h => ?_, fun ⟨_, _, h, _⟩ => ?_⟩
      · cases h
      · cases h
  | ok bytes =>
    simp only [Except.ok.injEq, exists_and_left, exists_eq_left']
    cases config.places bytes with
    | error cause =>
      refine ⟨fun h => ?_, fun ⟨_, h, _⟩ => ?_⟩
      · cases h
      · cases h
    | ok table =>
      simp only [Except.ok.injEq, exists_eq_left']
      exact ⟨fun h => (Option.some.inj h).symm, fun h => congrArg some h.symm⟩

/-! ### The assembler at work -/

/-- The text of the module that the assembler makes of its input. -/
def AssemblerOptions.made? (o : AssemblerOptions) (files : Files) : Option String :=
  (readText files o.input).toOption.bind fun t => (assemble t).toOption.map ObjectModule.text

/-- The file of the assembler. -/
def AssemblerOptions.file (o : AssemblerOptions) (contents : String) : NewFile where
  path := o.path
  contents := contents
  refusal e := Text.errorLine e.message

/-- **The assembler** yields its file if the text that it reads can be assembled. -/
theorem yields_assembleFile (o : AssemblerOptions) (files : Files) :
    Yields (assembleFile o files) ((o.made? files).map fun contents => some (o.file contents)) := by
  have hmade : ((o.made? files).map fun contents => some (o.file contents)) =
      (readText files o.input).toOption.bind fun t =>
        (assemble t).toOption.bind fun m => some (some (o.file m.text)) := by
    unfold AssemblerOptions.made?
    simp only [Option.map_eq_bind, Option.bind_assoc]
    rfl
  rw [hmade]
  unfold assembleFile
  refine yields_bind_of_some (yields_printLine _) ?_
  refine yields_bind_of_some (yields_printLine _) ?_
  refine yields_bind_of_some (yields_printLine _) ?_
  refine yields_bind (yields_require _ _) fun t => ?_
  unfold assemble
  dsimp only
  cases Assembly.feedAll (Text.lines t) {} with
  | error e a => exact yields_throw _
  | ok u a =>
    have hrest : Yields (do
        printLine "2. Resolve Symbols & Write Object Module"
        let m ← require (fun e => e.report o.input none (Text.lines t)) a.finish
        printLine ("  > " ++ o.path)
        return some (o.file m.text)) (a.finish.toOption.bind fun m => some (some (o.file m.text))) := by
      refine yields_bind_of_some (yields_printLine _) ?_
      refine yields_bind (yields_require _ _) fun m => ?_
      exact yields_bind_of_some (yields_printLine _) (yields_pure _)
    dsimp only
    by_cases hlisting : o.listing = true
    · rw [if_pos hlisting]
      exact yields_bind_of_some (yields_print _) hrest
    · rw [if_neg hlisting]
      exact hrest

/-! ### The linker at work -/

section Linker

variable {config : ConfigReader}

/-- The places that are asked for; the first entry of a name counts. -/
def LinkerOptions.places? (o : LinkerOptions) (config : ConfigReader) (files : Files) : Option (Named UInt16) :=
  (match o.placeFile with
    | none => some []
    | some path => (loadPlaces config files path).toOption).bind fun fromFile =>
      (o.places.mapM readPlace).toOption.map fun given => Keyed.ofList (fromFile ++ given)

theorem yields_readPlaces (o : LinkerOptions) (files : Files) :
    Yields (readPlaces config o files) (o.places? config files) := by
  have hplaces : o.places? config files = (match o.placeFile with
      | none => some []
      | some path => (loadPlaces config files path).toOption).bind fun fromFile =>
        (o.places.mapM readPlace).toOption.bind fun given =>
          some (Keyed.ofList (fromFile ++ given)) := by
    unfold LinkerOptions.places?
    simp only [Option.map_eq_bind]
    rfl
  rw [hplaces]
  have hgiven : ∀ fromFile : Named UInt16, Yields (do
      let given ← require linkReport (o.places.mapM readPlace)
      return Keyed.ofList (fromFile ++ given)) ((o.places.mapM readPlace).toOption.bind fun given =>
        some (Keyed.ofList (fromFile ++ given))) :=
    fun fromFile => yields_bind (yields_require _ _) fun given => yields_pure _
  unfold readPlaces
  cases o.placeFile with
  | none => exact hgiven []
  | some path =>
    refine yields_bind_of_some (yields_printLine _) ?_
    exact yields_bind (yields_require _ _) hgiven

theorem yields_change {α : Type} (x : LinkM α) (l : Linkage) :
    Yields (change x l) (match x.run l with
      | .ok a l' => some (a, l')
      | .error _ _ => none) := by
  unfold change EStateM.run
  cases x l with
  | error e l' => exact yields_throw _
  | ok a l' => exact yields_pure _

/-- Something printed for each of some items. -/
theorem yields_forIn {γ : Type} {act : γ → Console Unit} (hact : ∀ c, Yields (act c) (some ()))
    (cs : List γ) : Yields (forIn cs () fun c _ => do
      act c
      pure (.yield ())) (some ()) := by
  induction cs with
  | nil => exact yields_pure ()
  | cons c cs ih =>
    rw [List.forIn_cons]
    refine yields_bind (r := some (.yield ())) (g := fun _ => some ()) ?_ fun step => ?_
    · exact yields_bind_of_some (hact c) (yields_pure _)
    · cases step with
      | done u => exact yields_pure ()
      | yield u => exact ih

/-- **The image text** of a linkage is yielded if the places that are asked for can be read and the
linkage is resolved, laid out and relocated. -/
theorem yields_imageText (o : LinkerOptions) (files : Files) (l : Linkage) :
    Yields (imageText config o files l) (l.checkResolved.toOption.bind fun _ =>
      (o.places? config files).bind fun places => match (Linkage.place places).run l with
        | .error _ _ => none
        | .ok _ l' => match Linkage.relocate.run l' with
          | .error _ _ => none
          | .ok image _ => some image.text) := by
  unfold imageText
  refine yields_bind (yields_require _ _) fun u => ?_
  refine yields_bind_of_some (yields_printLine _) ?_
  refine yields_bind (yields_readPlaces o files) fun places => ?_
  have hplace := yields_change (Linkage.place places) l
  cases hrun : (Linkage.place places).run l with
  | error e l' =>
    rw [hrun] at hplace
    exact yields_bind_of_none hplace
  | ok unused l' =>
    rw [hrun] at hplace
    refine yields_bind_of_some hplace ?_
    refine yields_bind_of_some (yields_forIn (fun _ => yields_print _) unused) ?_
    refine yields_bind_of_some (yields_forIn (fun _ => yields_printLine _) l'.segments) ?_
    refine yields_bind_of_some (yields_printLine _) ?_
    have hrelocate := yields_change Linkage.relocate l'
    simp only
    cases hrel : Linkage.relocate.run l' with
    | error e l'' =>
      rw [hrel] at hrelocate
      exact yields_bind_of_none hrelocate
    | ok image l'' =>
      rw [hrel] at hrelocate
      exact yields_bind_of_some hrelocate (yields_pure _)

theorem yields_moduleText (o : LinkerOptions) (l : Linkage) :
    Yields (moduleText o l) (some l.toModule.text) := by
  unfold moduleText
  by_cases hplaces : (!o.places.isEmpty || o.placeFile.isSome) = true
  · rw [if_pos hplaces]
    exact yields_bind_of_some (yields_print _) (yields_pure _)
  · rw [if_neg hplaces]
    exact yields_pure _

/-- The text that the linker makes of modules. -/
def LinkerOptions.linked? (o : LinkerOptions) (config : ConfigReader) (files : Files)
    (ms : List ObjectModule) : Option String :=
  if o.relocatable then (linkPartially ms).toOption.map ObjectModule.text
  else (o.places? config files).bind fun places => (link ms places).toOption.map Image.text

/-- The text that the linker makes of its inputs. -/
def LinkerOptions.made? (o : LinkerOptions) (config : ConfigReader) (files : Files) :
    Option String :=
  (o.inputs.mapM (moduleIn? files)).bind (o.linked? config files)

/-- The file of the linker. -/
def LinkerOptions.file (o : LinkerOptions) (contents : String) : NewFile where
  path := o.output
  contents := contents
  refusal := FileError.report

/-- The steps of the linker are those of linking in one go; only the places are read in between. -/
theorem imageText_eq_link {ms : List ObjectModule} {l : Linkage}
    (hadd : (Linkage.addAll ms).run {} = .ok () l) (places? : Option (Named UInt16)) :
    (l.checkResolved.toOption.bind fun _ => places?.bind fun places =>
      match (Linkage.place places).run l with
        | .error _ _ => none
        | .ok _ l' => match Linkage.relocate.run l' with
          | .error _ _ => none
          | .ok image _ => some image.text) =
      places?.bind fun places => (link ms places).toOption.map Image.text := by
  cases places? with
  | none => cases l.checkResolved <;> rfl
  | some places =>
    simp only [Option.bind_some, link_eq, hadd]
    cases l.checkResolved with
    | error e => rfl
    | ok u =>
      simp only [Except.toOption, Option.bind_some]
      cases (Linkage.place places).run l with
      | error e l' => rfl
      | ok unused l' =>
        simp only
        cases Linkage.relocate.run l' <;> rfl

section

variable {o : LinkerOptions} {ms : List ObjectModule} {l : Linkage}

theorem linked?_eq_none {e : LinkError} (hadd : (Linkage.addAll ms).run {} = .error e l) :
    o.linked? config files ms = none := by
  unfold LinkerOptions.linked?
  simp only [linkPartially_eq, link_eq, hadd]
  cases o.relocatable <;> cases o.places? config files <;> rfl

theorem yields_moduleText_linked (hadd : (Linkage.addAll ms).run {} = .ok () l)
    (hrel : o.relocatable = true) : Yields (moduleText o l) (o.linked? config files ms) := by
  unfold LinkerOptions.linked?
  rw [if_pos hrel, linkPartially_eq, hadd]
  exact yields_moduleText o l

theorem yields_imageText_linked (hadd : (Linkage.addAll ms).run {} = .ok () l)
    (hrel : ¬ o.relocatable = true) : Yields (imageText config o files l) (o.linked? config files ms) := by
  unfold LinkerOptions.linked?
  rw [if_neg hrel, ← imageText_eq_link hadd]
  exact yields_imageText o files l

end

/-- **The linker** yields its file if its inputs are modules and the library links them. -/
theorem yields_linkFiles (o : LinkerOptions) (files : Files) :
    Yields (linkFiles config o files) ((o.made? config files).map fun contents => some (o.file contents)) := by
  have hmade : ((o.made? config files).map fun contents => some (o.file contents)) =
      (o.inputs.mapM (moduleIn? files)).bind fun ms =>
        (o.linked? config files ms).bind fun contents => some (some (o.file contents)) := by
    unfold LinkerOptions.made?
    simp only [Option.map_eq_bind, Option.bind_assoc]
    rfl
  rw [hmade]
  unfold linkFiles
  refine yields_bind_of_some (yields_printLine _) ?_
  refine yields_bind_of_some (yields_printLine _) ?_
  refine yields_bind (yields_readModules files o.inputs) fun ms => ?_
  refine yields_bind_of_some (yields_printLine _) ?_
  have hchange := yields_change (Linkage.addAll ms) {}
  cases hadd : (Linkage.addAll ms).run {} with
  | error e l =>
    rw [hadd] at hchange
    rw [linked?_eq_none hadd]
    exact yields_bind_of_none hchange
  | ok u l =>
    rw [hadd] at hchange
    refine yields_bind_of_some hchange ?_
    have hrest : ∀ contents, Yields (do
        printLine ("  > " ++ o.output)
        return some (o.file contents)) (some (some (o.file contents))) :=
      fun contents => yields_bind_of_some (yields_printLine _) (yields_pure _)
    dsimp only
    by_cases hrel : o.relocatable = true
    · rw [if_pos hrel]
      exact yields_bind (yields_moduleText_linked hadd hrel) hrest
    · rw [if_neg hrel]
      exact yields_bind (yields_imageText_linked hadd hrel) hrest

/-! ### What is made of files -/

/-- The assembler makes the text of the module that the text in its input is assembled to. -/
def AssemblerOptions.Makes (o : AssemblerOptions) (files : Files) (text : String) : Prop :=
  ∃ t m, files o.input = .ok t.toUTF8 ∧ assemble t = .ok m ∧ text = m.text

/-- Files hold modules: each is the text of one. -/
def Hold (files : Files) (paths : List String) (ms : List ObjectModule) : Prop :=
  List.Forall₂ (fun path m => ∃ t, files path = .ok t.toUTF8 ∧ ObjectModule.ofText t = .ok m) paths ms

/-- The places in the file of places; none without such a file. -/
def LinkerOptions.InFile (o : LinkerOptions) (config : ConfigReader) (files : Files)
    (places : Named UInt16) : Prop :=
  match o.placeFile with
  | none => places = []
  | some path => ∃ bytes table, files path = .ok bytes ∧ config.places bytes = .ok table ∧
      places = Keyed.ofList (byName table)

/-- The linker is asked for places, of which the first of a name counts: those of the options, the last
option first, and then those of the file. -/
def LinkerOptions.Asks (o : LinkerOptions) (config : ConfigReader) (files : Files)
    (places : Named UInt16) : Prop :=
  ∃ fromFile given, o.InFile config files fromFile ∧
    List.Forall₂ (fun argument place => readPlace argument = .ok place) o.places given ∧
    places = given.reverse ++ fromFile

/-- The linker makes the text of the module, or else of the image, that the modules in its inputs are
linked to. -/
def LinkerOptions.Makes (o : LinkerOptions) (config : ConfigReader) (files : Files) (text : String) :
    Prop :=
  ∃ ms, Hold files o.inputs ms ∧
    if o.relocatable then ∃ m, linkPartially ms = .ok m ∧ text = m.text
    else ∃ places image, o.Asks config files places ∧ link ms places = .ok image ∧ text = image.text

theorem AssemblerOptions.made?_eq_some_iff (o : AssemblerOptions) (files : Files) (text : String) :
    o.made? files = some text ↔ o.Makes files text := by
  unfold made? Makes
  rw [Option.bind_eq_some_iff]
  refine exists_congr fun t => ?_
  rw [readText_eq_some_iff, Option.map_eq_some_iff]
  constructor
  · rintro ⟨ht, m, hm, rfl⟩
    exact ⟨m, ht, ok_of_toOption hm, rfl⟩
  · rintro ⟨m, ht, hm, rfl⟩
    exact ⟨ht, m, toOption_eq_some_iff.mpr hm, rfl⟩

theorem mapM_moduleIn?_eq_some_iff {paths : List String} {ms : List ObjectModule} :
    paths.mapM (moduleIn? files) = some ms ↔ Hold files paths ms := by
  have hone : ∀ path m, moduleIn? files path = some m ↔
      ∃ t, files path = .ok t.toUTF8 ∧ ObjectModule.ofText t = .ok m := by
    intro path m
    unfold moduleIn?
    rw [Option.bind_eq_some_iff]
    refine exists_congr fun t => ?_
    rw [readText_eq_some_iff, toOption_eq_some_iff]
  rw [mapM_eq_some_iff, Hold]
  simp only [hone]

theorem LinkerOptions.InFile.nodup {o : LinkerOptions} {places : Named UInt16}
    (h : o.InFile config files places) : (places.map Prod.fst).Nodup := by
  unfold InFile at h
  split at h
  · rw [h]
    exact List.nodup_nil
  · obtain ⟨bytes, table, -, -, rfl⟩ := h
    exact Keyed.nodup_keys_ofList (byName table)

theorem LinkerOptions.places?_eq_some_iff {o : LinkerOptions} {places : Named UInt16} :
    o.places? config files = some places ↔ ∃ fromFile given, o.InFile config files fromFile ∧
      List.Forall₂ (fun argument place => readPlace argument = .ok place) o.places given ∧
      places = Keyed.ofList (fromFile ++ given) := by
  have hfile : ∀ fromFile, (match o.placeFile with
      | none => some []
      | some path => (loadPlaces config files path).toOption) = some fromFile ↔
        o.InFile config files fromFile := by
    intro fromFile
    unfold InFile
    cases o.placeFile with
    | none =>
      rw [Option.some.injEq]
      exact eq_comm
    | some path => exact loadPlaces_eq_some_iff
  have hgiven : ∀ given, (o.places.mapM readPlace).toOption = some given ↔
      List.Forall₂ (fun argument place => readPlace argument = .ok place) o.places given := by
    intro given
    rw [toOption_mapM, mapM_eq_some_iff]
    simp only [toOption_eq_some_iff]
  unfold places?
  rw [Option.bind_eq_some_iff]
  refine exists_congr fun fromFile => ?_
  rw [hfile, Option.map_eq_some_iff]
  constructor
  · rintro ⟨hin, given, hg, rfl⟩
    exact ⟨given, hin, (hgiven given).mp hg, rfl⟩
  · rintro ⟨given, hin, hg, rfl⟩
    exact ⟨hin, given, (hgiven given).mpr hg, rfl⟩

/-- An option counts more than the file, and a later option more than an earlier one. -/
theorem link_ofList {fromFile given : Named UInt16} (hn : (fromFile.map Prod.fst).Nodup)
    (ms : List ObjectModule) :
    link ms (Keyed.ofList (fromFile ++ given)) = link ms (given.reverse ++ fromFile) := by
  apply link_congr
  intro name
  rw [Keyed.lookup_ofList, List.reverse_append, List.lookup_append, List.lookup_append,
    lookup_eq_of_perm hn (List.reverse_perm fromFile).symm]

theorem LinkerOptions.made?_eq_some_iff (o : LinkerOptions) (files : Files) (text : String) :
    o.made? config files = some text ↔ o.Makes config files text := by
  unfold made? Makes
  rw [Option.bind_eq_some_iff]
  refine exists_congr fun ms => ?_
  rw [mapM_moduleIn?_eq_some_iff]
  refine and_congr_right fun _ => ?_
  unfold linked?
  by_cases hrel : o.relocatable = true
  · rw [if_pos hrel, if_pos hrel, Option.map_eq_some_iff]
    refine exists_congr fun m => ?_
    rw [toOption_eq_some_iff]
    exact and_congr_right fun _ => eq_comm
  · rw [if_neg hrel, if_neg hrel, Option.bind_eq_some_iff]
    constructor
    · rintro ⟨places, hplaces, htext⟩
      obtain ⟨fromFile, given, hin, hgiven, rfl⟩ := places?_eq_some_iff.mp hplaces
      obtain ⟨image, himage, rfl⟩ := Option.map_eq_some_iff.mp htext
      rw [link_ofList hin.nodup, toOption_eq_some_iff] at himage
      exact ⟨_, image, ⟨fromFile, given, hin, hgiven, rfl⟩, himage, rfl⟩
    · rintro ⟨places, image, ⟨fromFile, given, hin, hgiven, rfl⟩, himage, rfl⟩
      refine ⟨_, places?_eq_some_iff.mpr ⟨fromFile, given, hin, hgiven, rfl⟩, ?_⟩
      rw [link_ofList hin.nodup, himage]
      rfl

end Linker

/-! ### What is delivered -/

/-- A tool that makes a text leaves it at a path. It ends with status 0 just if it makes one and all of it can
be written there, and then it leaves one file, which holds the text. Otherwise it ends with status 1 and
leaves no file, unless one has been created that takes only a first part of the text. -/
structure Aftermath.Delivers (after : Aftermath) (path : String) (storage : Storage)
    (makes : String → Prop) : Prop where
  status : after.status = 0 ↔ ∃ text, makes text ∧ storage.takes text.toUTF8.size = true
  written : ∀ text, makes text → storage.takes text.toUTF8.size = true →
    after.written = some (path, text.toUTF8)
  failed : (¬ ∃ text, makes text ∧ storage.takes text.toUTF8.size = true) → after.status = 1
  unmade : (¬ ∃ text, makes text) → after.written = none
  uncreated : ∀ cause, storage = .closed cause → after.written = none
  cut : ∀ text room cause, makes text → storage = .limited room cause → room < text.toUTF8.size →
    after.written = some (path, text.toUTF8.extract 0 room)

section Delivers

variable {path text : String} {storage : Storage} {makes : String → Prop} {out : List Output}

theorem Aftermath.delivers_of_unmade (h : ¬ ∃ text, makes text) :
    Aftermath.Delivers ⟨out, 1, none⟩ path storage makes where
  status := ⟨fun h => absurd h (show (1 : UInt8) ≠ 0 by decide), fun ⟨text, hmade, _⟩ => absurd ⟨text, hmade⟩ h⟩
  written text hmade _ := absurd ⟨text, hmade⟩ h
  failed _ := rfl
  unmade _ := rfl
  uncreated _ _ := rfl
  cut text _ _ hmade _ _ := absurd ⟨text, hmade⟩ h

/-- The file of a text that is made. -/
theorem Aftermath.delivers_of_taken (h : ∀ t, makes t ↔ t = text)
    (htakes : storage.takes text.toUTF8.size = true) :
    Aftermath.Delivers ⟨out, 0, some (path, text.toUTF8)⟩ path storage makes where
  status := ⟨fun _ => ⟨text, (h text).mpr rfl, htakes⟩, fun _ => rfl⟩
  written t hmade _ := by rw [(h t).mp hmade]
  failed hno := absurd ⟨text, (h text).mpr rfl, htakes⟩ hno
  unmade hno := absurd ⟨text, (h text).mpr rfl⟩ hno
  uncreated cause hclosed := by
    subst hclosed
    cases htakes
  cut t room cause hmade hlimited hlt := by
    rw [(h t).mp hmade] at hlt
    subst hlimited
    exact absurd (of_decide_eq_true htakes) (Nat.not_le.mpr hlt)

/-- A file that cannot be created or takes only a part of its text. -/
theorem Aftermath.delivers_of_untaken {written : Option (String × ByteArray)}
    (h : ∀ t, makes t ↔ t = text) (htakes : storage.takes text.toUTF8.size = false)
    (hclosed : ∀ cause, storage = .closed cause → written = none)
    (hlimited : ∀ room cause, storage = .limited room cause →
      written = some (path, text.toUTF8.extract 0 room)) :
    Aftermath.Delivers ⟨out, 1, written⟩ path storage makes := by
  have hno : ¬ ∃ t, makes t ∧ storage.takes t.toUTF8.size = true := by
    rintro ⟨t, hmade, ht⟩
    rw [(h t).mp hmade, htakes] at ht
    cases ht
  refine ⟨⟨fun h1 => absurd h1 (show (1 : UInt8) ≠ 0 by decide), fun hyes => absurd hyes hno⟩,
    fun t hmade ht => absurd ⟨t, hmade, ht⟩ hno, fun _ => rfl,
    fun hnone => absurd ⟨text, (h text).mpr rfl⟩ hnone, hclosed, fun t room cause hmade hroom _ => ?_⟩
  rw [(h t).mp hmade]
  exact hlimited room cause hroom

end Delivers

/-- **A tool at work that yields a file** delivers its text. -/
theorem Outcome.delivers_ofConsole {x : Console (Option NewFile)} {made? : Option String}
    {newFile : String → NewFile} {makes : String → Prop} {path : String}
    (hx : Yields x (made?.map fun contents => some (newFile contents)))
    (hpath : ∀ contents, (newFile contents).path = path)
    (hcontents : ∀ contents, (newFile contents).contents = contents)
    (hmakes : ∀ text, made? = some text ↔ makes text) (storage : String → Storage) :
    ((ofConsole x).settled storage).Delivers path (storage path) makes := by
  have hvalue := hx #[]
  unfold value? at hvalue
  unfold ofConsole
  cases hrun : x #[] with
  | error report printed =>
    rw [hrun] at hvalue
    refine Aftermath.delivers_of_unmade fun ⟨text, htext⟩ => ?_
    rw [(hmakes text).mpr htext] at hvalue
    cases hvalue
  | ok file printed =>
    rw [hrun] at hvalue
    obtain ⟨text, hmade, rfl⟩ := Option.map_eq_some_iff.mp hvalue.symm
    have hone : ∀ t, makes t ↔ t = text := by
      intro t
      rw [← hmakes, hmade, Option.some.injEq]
      exact eq_comm
    have hbytes : (newFile text).bytes = text.toUTF8 := by rw [NewFile.bytes, hcontents]
    unfold settled refused
    simp only [hpath, hbytes]
    cases hstorage : storage path with
    | free => exact Aftermath.delivers_of_taken hone rfl
    | closed cause =>
      refine Aftermath.delivers_of_untaken hone rfl (fun _ _ => rfl) fun _ _ h => ?_
      cases h
    | limited room cause =>
      simp only
      by_cases hroom : text.toUTF8.size ≤ room
      · rw [if_pos hroom]
        exact Aftermath.delivers_of_taken hone (decide_eq_true hroom)
      · rw [if_neg hroom]
        refine Aftermath.delivers_of_untaken hone (decide_eq_false hroom) (fun _ h => ?_) fun _ _ h => ?_
        · cases h
        · cases h
          rfl

/-- **The assembler and the linker** do what assembling and linking do, and fail cleanly, by whatever
functions command lines and files of places are read. Past its arguments, a tool ends with status 0 just if
its files can be read, the library makes a text of them, and the output can be created and takes that text;
then the output holds the text and no other file is written. Otherwise it ends with status 1. It writes no
file then, but an output that has been created and refuses a part of the text holds what stands before. -/
theorem tools_deliver (parseAssembler : List String → Request AssemblerOptions)
    (parseLinker : List String → Request LinkerOptions) (config : ConfigReader) (files : Files)
    (storage : String → Storage) (arguments : List String) :
    (∀ o, parseAssembler arguments = .run o →
      ((assembler parseAssembler arguments files).settled storage).Delivers o.path (storage o.path)
        (o.Makes files)) ∧
    ∀ o, parseLinker (arguments.map withHyphens) = .run o →
      ((linker parseLinker config arguments files).settled storage).Delivers o.output
        (storage o.output) (o.Makes config files) := by
  constructor
  · intro o ho
    have hwork : assembler parseAssembler arguments files = .ofConsole (assembleFile o files) := by
      rw [assembler, ho]
      rfl
    rw [hwork]
    exact Outcome.delivers_ofConsole (yields_assembleFile o files) (fun _ => rfl) (fun _ => rfl)
      (o.made?_eq_some_iff files) storage
  · intro o ho
    have hwork : linker parseLinker config arguments files = .ofConsole (linkFiles config o files) := by
      rw [linker, ho]
      rfl
    rw [hwork]
    exact Outcome.delivers_ofConsole (yields_linkFiles o files) (fun _ => rfl) (fun _ => rfl)
      (o.made?_eq_some_iff files) storage

/-- The text of a module with a word in one section. -/
def wordText : String :=
  "UND:0:0:false:false:0:0:\ncode:1:0:true:true:1:2:\nend symbol table\nnew section\ncode\n07:00:\n" ++
    "end section\nend file\n"

/-- A source text and the text of a module, in two files. -/
def twoFiles : Files := fun path =>
  if path = "a.s" then .ok ".section code\n.word 7".toUTF8
  else if path = "a.o" then .ok wordText.toUTF8
  else .error (.notOpened "No such file or directory (os error 2)")

/-- Both files are used, with a place for the section; a file that cannot be created is no success. -/
theorem tools_deliver_two :
    let parse := AssemblerOptions.ofArguments
    let parse' := LinkerOptions.ofArguments
    (∃ m, assemble ".section code\n.word 7" = .ok m ∧
      ((assembler parse ["a.s"] twoFiles).settled fun _ => .free).written = some ("a.o", m.text.toUTF8)) ∧
    ((assembler parse ["a.s"] twoFiles).settled fun _ => .closed "Permission denied").status = 1 ∧
    ((linker parse' Config.reader ["-hex", "-place=code@0x4000", "a.o"] twoFiles).settled
      fun _ => .free).written = some ("a.hex", "4000: 07 00\n".toUTF8) := by
  have hassembles : AssemblerOptions.ofArguments ["a.s"] =
      .run { input := "a.s", output := none, listing := false } := by decide +kernel
  have hlinks : LinkerOptions.ofArguments (["-hex", "-place=code@0x4000", "a.o"].map withHyphens) =
      .run { inputs := ["a.o"], relocatable := false, output := "a.hex", places := ["code@0x4000"],
             placeFile := none } := by decide +kernel
  have hpath : AssemblerOptions.path { input := "a.s", output := none, listing := false } = "a.o" := by
    decide +kernel
  have hassembled : (assemble ".section code\n.word 7").toOption.isSome := by decide +kernel
  have hread : (readPlace "code@0x4000").toOption = some ("code", 0x4000) := by decide +kernel
  have hlinked : ((ObjectModule.ofText wordText).toOption.bind fun m =>
      (link [m] [("code", 0x4000)]).toOption.map Image.text) = some "4000: 07 00\n" := by
    decide +kernel
  obtain ⟨m, hm⟩ := Option.isSome_iff_exists.mp hassembled
  have hm := ok_of_toOption hm
  obtain ⟨k, hk, hlinked⟩ := Option.bind_eq_some_iff.mp hlinked
  obtain ⟨image, himage, htext⟩ := Option.map_eq_some_iff.mp hlinked
  have hcreated := (tools_deliver AssemblerOptions.ofArguments LinkerOptions.ofArguments Config.reader
    twoFiles (fun _ => .free) ["a.s"]).1 _ hassembles
  have hrefused := (tools_deliver AssemblerOptions.ofArguments LinkerOptions.ofArguments Config.reader
    twoFiles (fun _ => .closed "Permission denied") ["a.s"]).1 _ hassembles
  have hlinker := (tools_deliver AssemblerOptions.ofArguments LinkerOptions.ofArguments Config.reader
    twoFiles (fun _ => .free) ["-hex", "-place=code@0x4000", "a.o"]).2 _ hlinks
  rw [hpath] at hcreated
  refine ⟨⟨m, hm, hcreated.written _ ⟨_, m, rfl, hm, rfl⟩ rfl⟩, hrefused.failed ?_,
    hlinker.written _ ⟨[k], .cons ⟨wordText, rfl, ok_of_toOption hk⟩ .nil, ?_⟩ rfl⟩
  · rintro ⟨text, -, hno⟩
    cases hno
  · exact ⟨[("code", 0x4000)], image, ⟨[], [("code", 0x4000)], rfl, .cons (ok_of_toOption hread) .nil, rfl⟩,
      ok_of_toOption himage, htext.symm⟩

/-- **A file that is created and not written.** The source can be assembled and the output be created, but
it takes no byte; so the tool ends with status 1, and has changed a file. -/
theorem tools_deliver_full :
    let storage := fun _ => Storage.limited 0 "No space left on device (os error 28)"
    let after := (assembler AssemblerOptions.ofArguments ["a.s"] twoFiles).settled storage
    (assemble ".section code\n.word 7").toOption.isSome = true ∧ after.status = 1 ∧
      after.written = some ("a.o", ByteArray.empty) := by
  decide +kernel

end Tool
end Sx16
