import DocCompiler.CommandLine.Run
import DocCompiler.Proofs.Worker.Fit

/-! Compilation with and without a worker, on the command line. The switch `--worker` changes neither
what is loaded nor what is verified. What is printed is the same as well if the request fits into a
message; if it does not, the worker drops it, and the run waits for ever. -/

namespace DocCompiler.CommandLine

open Compile (compileDocument)

section Arguments

variable {c : Command} {given out : Given} {awaiting : Option Switch} {args : List String}

/-- What an argument amounts to, whatever was given before it. -/
inductive Meaning where
  | gives (s : Switch) (value : String)
  | awaits (s : Switch)
  | ends
  | stops (stop : Stop)

def Meaning.proceed (c : Command) (given : Given) (rest : List String) : Meaning → Except Stop Given
  | .gives s value => do gather c (← give c s value given) none rest
  | .awaits s => gather c given (some s) rest
  | .ends => .ok given
  | .stops stop => .error stop

theorem exists_meaning (c : Command) (awaiting : Option Switch) (arg : String) (rest : List String) :
    ∃ m : Meaning, ∀ given, gather c given awaiting (arg :: rest) = m.proceed c given rest := by
  unfold gather
  cases awaiting with
  | some s =>
    by_cases hswitch : isSwitchLike arg = true
    · exact ⟨.stops _, fun _ => if_pos hswitch⟩
    · exact ⟨.gives s arg, fun _ => if_neg hswitch⟩
  | none =>
    cases hnamed : named? c arg with
    | none =>
      by_cases hlast : (arg = "--" && rest.isEmpty) = true
      · exact ⟨.ends, fun _ => if_pos hlast⟩
      · exact ⟨.stops _, fun _ => if_neg hlast⟩
    | some found =>
      obtain ⟨s, inline⟩ := found
      cases hvalue : s.value? with
      | none =>
        cases inline with
        | some value => exact ⟨.stops _, fun _ => by simp only [hvalue]; rfl⟩
        | none =>
          by_cases hhelp : s = .help
          · exact ⟨.stops _, fun _ => by simp only [hvalue]; exact if_pos hhelp⟩
          · exact ⟨.gives s "", fun _ => by simp only [hvalue]; exact if_neg hhelp⟩
      | some name =>
        cases inline with
        | some value => exact ⟨.gives s value, fun _ => by simp only [hvalue]; rfl⟩
        | none => exact ⟨.awaits s, fun _ => by simp only [hvalue]; rfl⟩

theorem give_eq_ok {s : Switch} {value : String} (h : give c s value given = .ok out) :
    out = given ++ [(s, value)] := by
  rw [give] at h
  split at h
  case isTrue => cases h
  case isFalse => exact (Except.ok.inj h).symm

theorem prefix_of_gather (h : gather c given awaiting args = .ok out) : given <+: out := by
  induction args generalizing given awaiting with
  | nil =>
    rw [gather] at h
    split at h
    case isTrue => cases h
    case isFalse => rw [Except.ok.inj h]
  | cons arg rest ih =>
    obtain ⟨m, hm⟩ := exists_meaning c awaiting arg rest
    rw [hm] at h
    cases m with
    | gives s value =>
      obtain ⟨more, hgive, hrest⟩ := bind_eq_ok h
      obtain rfl := give_eq_ok hgive
      exact (List.prefix_append given _).trans (ih hrest)
    | awaits s => exact ih h
    | ends => rw [Except.ok.inj h]
    | stops stop => cases h

theorem has_worker_cons {s : Switch} (h : Switch.worker ≠ s) :
    Given.has ((.worker, "") :: given) s = given.has s := by
  rw [Given.has, List.any_cons, decide_eq_false h, Bool.false_or]
  rfl

theorem give_worker {s : Switch} {value : String} (h : give c s value given = .ok out)
    (hother : Switch.worker ≠ s) :
    give c s value ((.worker, "") :: given) = .ok ((.worker, "") :: out) := by
  obtain rfl := give_eq_ok h
  rw [give] at h ⊢
  rw [has_worker_cons hother]
  split at h
  case isTrue => cases h
  case isFalse hgiven =>
    rw [if_neg hgiven]
    rfl

/-- The worker may be asked for first where it is not asked for later. -/
theorem gather_worker (h : gather c given awaiting args = .ok out) (hplain : out.has .worker = false) :
    gather c ((.worker, "") :: given) awaiting args = .ok ((.worker, "") :: out) := by
  induction args generalizing given awaiting with
  | nil =>
    rw [gather] at h ⊢
    split at h
    case isTrue => cases h
    case isFalse hawaiting => rw [if_neg hawaiting, Except.ok.inj h]
  | cons arg rest ih =>
    obtain ⟨m, hm⟩ := exists_meaning c awaiting arg rest
    rw [hm] at h ⊢
    cases m with
    | awaits s => exact ih h
    | ends => exact congrArg (fun g => Except.ok ((Switch.worker, "") :: g)) (Except.ok.inj h)
    | stops stop => cases h
    | gives s value =>
      obtain ⟨more, hgive, hrest⟩ := bind_eq_ok h
      -- the switch of this argument is among those that are given in the end
      have hother : Switch.worker ≠ s := by
        rintro rfl
        have hmem : (Switch.worker, value) ∈ out := by
          apply (prefix_of_gather hrest).subset
          rw [give_eq_ok hgive]
          exact List.mem_append_right _ (.head _)
        exact absurd hplain (by simpa [Given.has] using ⟨value, hmem⟩)
      rw [Meaning.proceed, give_worker hgive hother]
      exact ih hrest

end Arguments

section Loading

variable {files : Files} {given : Given} {r : CompileRequest}

theorem load_eq_ok {α : Type} {c : Wire.Codec α} {path : String} {a : α}
    (h : load files c path = .ok a) : ∃ text, c.ofText text = .ok a := by
  rw [load] at h
  split at h
  case h_1 => cases h
  case h_2 text _ => exact ⟨text, mapError_eq_ok h⟩

theorem loadGiven_eq_ok {α : Type} {c : Wire.Codec α} {s : Switch} {absent a : α}
    (h : loadGiven files given s c absent = .ok a) :
    a = absent ∨ ∃ text, c.ofText text = .ok a := by
  rw [loadGiven] at h
  split at h
  case h_1 => exact .inr (load_eq_ok h)
  case h_2 => exact .inl (Except.ok.inj h).symm

theorem decoded_of_loadRequest (h : loadRequest files given = .ok r) : r.Decoded 122 := by
  obtain ⟨document, hdocument, h⟩ := bind_eq_ok h
  obtain ⟨snippets, hsnippets, h⟩ := bind_eq_ok h
  obtain ⟨values, -, h⟩ := bind_eq_ok h
  cases h
  obtain ⟨text, htext⟩ := load_eq_ok hdocument
  obtain ⟨v, hv, hdecode⟩ := Wire.reads_document.kept_of_ofText htext
  refine ⟨Wire.yields_document .plain v document hv hdecode, ?_⟩
  rcases loadGiven_eq_ok hsnippets with rfl | ⟨text, htext⟩
  · exact List.forall_mem_nil _
  · obtain ⟨v, hv, hdecode⟩ := (Wire.Codec.reads_list Wire.reads_snippetBundle).kept_of_ofText htext
    exact Wire.Codec.yields_list Wire.yields_snippetBundle .plain v snippets hv hdecode

end Loading

section Running

variable {files : Files} {given : Given} {args : List String} {r : CompileRequest}

/-- The request that a run comes to compile: it is loaded, and none of its bundles is rejected. -/
def Compiles (files : Files) (given : Given) (r : CompileRequest) : Prop :=
  loadRequest files given = .ok r ∧ (given.has .verify = true → rejected? r.snippets = none)

theorem runCompile_of_compiles (h : Compiles files given r) :
    runCompile files given = (compileRequest given r).map report := by
  obtain ⟨hload, haccepted⟩ := h
  rw [runCompile, hload]
  dsimp only
  split
  case h_2 => rfl
  case h_1 output hrejected =>
    split at hrejected
    case isFalse => cases hrejected
    case isTrue hverify =>
      rw [haccepted hverify] at hrejected
      cases hrejected

theorem runCompile_of_not_compiles (h : ∀ r, ¬ Compiles files given r) :
    ∃ output, ∀ given' : Given, loadRequest files given' = loadRequest files given →
      given'.has .verify = given.has .verify → runCompile files given' = some output := by
  cases hload : loadRequest files given with
  | error message =>
    refine ⟨failure message, fun given' hload' _ => ?_⟩
    rw [runCompile, hload']
  | ok r =>
    have hreject : given.has .verify = true ∧ rejected? r.snippets ≠ none := by
      by_contra hnot
      refine h r ⟨hload, fun hverify => ?_⟩
      by_contra hrejected
      exact hnot ⟨hverify, hrejected⟩
    obtain ⟨hverify, hrejected⟩ := hreject
    obtain ⟨output, houtput⟩ := Option.ne_none_iff_exists'.1 hrejected
    refine ⟨output, fun given' hload' hverify' => ?_⟩
    rw [runCompile, hload', hverify', hverify]
    simp only [if_true, houtput]

theorem compileRequest_plain (h : given.has .worker = false) :
    compileRequest given r = some (.ok (compileDocument r)) := by
  rw [compileRequest, if_neg (Bool.eq_false_iff.1 h)]

/-- Without a limit of time, a worker is waited for until it answers. -/
theorem compileRequest_worker (h : given.has .timeoutMs = false) :
    compileRequest ((.worker, "") :: given) r =
      ((Worker.connect true).compileAll [r] none).2.head?.join := by
  have hworker : Given.has ((.worker, "") :: given) .worker = true := rfl
  have htimeout : Given.value? ((.worker, "") :: given) .timeoutMs = none := by
    have hother : (Given.values ((.worker, "") :: given) .timeoutMs) = given.values .timeoutMs := rfl
    have hnone : given.filter (·.1 = .timeoutMs) = [] := by
      rw [List.filter_eq_nil_iff]
      exact List.any_eq_false.1 h
    rw [Given.value?, hother, Given.values, hnone]
    rfl
  rw [compileRequest, if_pos hworker, htimeout]
  rfl

/-- The two ways to compile a request give the same, if it fits; else one of them gives nothing. -/
theorem compileRequest_eq (hload : loadRequest files given = .ok r)
    (hnumbers : (Wire.compileRequest.encode r).NumbersReadBack)
    (htimeout : given.has .timeoutMs = false) :
    (r.FitsMessage →
      compileRequest ((.worker, "") :: given) r = some (.ok (compileDocument r))) ∧
    (¬ r.FitsMessage → compileRequest ((.worker, "") :: given) r = none) := by
  rw [compileRequest_worker htimeout]
  refine ⟨fun hfits => ?_, fun hdeep => ?_⟩
  · rw [Worker.Channel.compileAll_fits Worker.Channel.idle_connect (decoded_of_loadRequest hload)
      hnumbers hfits]
    rfl
  · rw [Worker.Channel.compileAll_not_fits Worker.Channel.idle_connect rfl hdeep]
    rfl

theorem ofArguments_compile (args : List String) :
    Invocation.ofArguments ("compile" :: args) = Invocation.of .compile args := by
  have hfind : Command.find? "compile" = some .compile := by decide
  have hhelp : ("compile" = "--help" || "compile".startsWith "-h") = false := by decide +kernel
  rw [Invocation.ofArguments]
  · rw [hhelp, if_neg Bool.false_ne_true, hfind]
  all_goals simp

theorem of_compile_eq_ok (h : Invocation.of .compile args = .ok ⟨.compile, given⟩)
    (hplain : given.has .worker = false) : gather .compile [] none args = .ok given ∧
      given.has .document = true ∧ given.has .timeoutMs = false := by
  rw [Invocation.of] at h
  obtain ⟨found, hgather, h⟩ := bind_eq_ok h
  split at h
  case isTrue => cases h
  case isFalse hallowed =>
    cases h
    rw [hplain] at hallowed
    simp only [Command.required, Bool.not_false, Bool.and_true, Bool.or_eq_true, not_or,
      Bool.not_eq_true, Bool.not_eq_false'] at hallowed
    exact ⟨hgather, hallowed⟩

theorem of_compile_worker (h : Invocation.of .compile args = .ok ⟨.compile, given⟩)
    (hplain : given.has .worker = false) :
    Invocation.of .compile ("--worker" :: args) = .ok ⟨.compile, (.worker, "") :: given⟩ := by
  obtain ⟨hgather, hdocument, -⟩ := of_compile_eq_ok h hplain
  have hnamed : named? .compile "--worker" = some (.worker, none) := by decide
  have hfirst : gather .compile [] none ("--worker" :: args) =
      gather .compile [(.worker, "")] none args := by
    rw [gather]
    simp only [hnamed]
    rfl
  have hallowed : (!Given.has ((.worker, "") :: given) .document ||
      (Given.has ((.worker, "") :: given) .timeoutMs &&
        !Given.has ((.worker, "") :: given) .worker)) = false := by
    have hdocument' : Given.has ((.worker, "") :: given) .document = true := hdocument
    have hworker : Given.has ((.worker, "") :: given) .worker = true := rfl
    rw [hdocument', hworker]
    simp
  rw [Invocation.of, hfirst, gather_worker hgather hplain]
  exact if_neg (Bool.eq_false_iff.1 hallowed)

theorem run?_compile (h : Invocation.ofArguments args = .ok ⟨.compile, given⟩) :
    run? files args = runCompile files given := by
  rw [run?, h]
  rfl

/-- **Compiling by a worker prints the same, if the request fits into a message.** Of all contents of
the files and all other switches, let the run without `--worker` be given. It prints something. With
`--worker` exactly the same is printed if the request that comes to be compiled, if there is one, fits
into a message; if it does not, nothing is ever printed. -/
theorem run_worker_parity
    (hargs : Invocation.ofArguments ("compile" :: args) = .ok ⟨.compile, given⟩)
    (hplain : given.has .worker = false)
    (hnumbers : ∀ r, Compiles files given r → (Wire.compileRequest.encode r).NumbersReadBack) :
    (run? files ("compile" :: args)).isSome = true ∧
      (run? files ("compile" :: "--worker" :: args) = run? files ("compile" :: args) ↔
        ∀ r, Compiles files given r → r.FitsMessage) ∧
      ((∃ r, Compiles files given r ∧ ¬ r.FitsMessage) →
        run? files ("compile" :: "--worker" :: args) = none) := by
  have hof : Invocation.of .compile args = .ok ⟨.compile, given⟩ := ofArguments_compile args ▸ hargs
  obtain ⟨-, -, htimeout⟩ := of_compile_eq_ok hof hplain
  have hworker : Invocation.ofArguments ("compile" :: "--worker" :: args) =
      .ok ⟨.compile, (.worker, "") :: given⟩ := by
    rw [ofArguments_compile]
    exact of_compile_worker hof hplain
  have hload : loadRequest files ((.worker, "") :: given) = loadRequest files given := rfl
  have hverify : Given.has ((.worker, "") :: given) .verify = given.has .verify := rfl
  rw [run?_compile hargs, run?_compile hworker]
  by_cases hcompiles : ∃ r, Compiles files given r
  · obtain ⟨r, hr⟩ := hcompiles
    have hr' : Compiles files ((.worker, "") :: given) r := hr
    have hunique : ∀ r', Compiles files given r' → r' = r := fun r' hr'' =>
      Except.ok.inj (hr''.1.symm.trans hr.1)
    obtain ⟨hfits, hdeep⟩ := compileRequest_eq hr.1 (hnumbers r hr) htimeout
    rw [runCompile_of_compiles hr, runCompile_of_compiles hr', compileRequest_plain hplain]
    refine ⟨rfl, ⟨fun heq r' hr'' => ?_, fun hall => ?_⟩, ?_⟩
    · rw [hunique r' hr'']
      by_contra hnot
      rw [hdeep hnot] at heq
      cases heq
    · rw [hfits (hall r hr)]
    · rintro ⟨r', hr'', hnot⟩
      rw [hdeep (hunique r' hr'' ▸ hnot)]
      rfl
  · have hnone : ∀ r, ¬ Compiles files given r := fun r hr => hcompiles ⟨r, hr⟩
    obtain ⟨output, houtput⟩ := runCompile_of_not_compiles hnone
    rw [houtput given rfl rfl, houtput _ hload hverify]
    refine ⟨rfl, ⟨fun _ r hr => absurd hr (hnone r), fun _ => rfl⟩, ?_⟩
    rintro ⟨r, hr, -⟩
    exact absurd hr (hnone r)

end Running

section Depth

variable {n depth : Nat}

def nestedLists : Nat → Json
  | 0 => .null
  | n + 1 => .arr [nestedLists n]

theorem readable_nestedLists (h : n < depth) : Json.Readable depth (nestedLists n) := by
  induction n generalizing depth with
  | zero =>
    obtain ⟨less, rfl⟩ := Nat.exists_eq_succ_of_ne_zero (Nat.ne_of_gt h)
    exact .null less
  | succ n ih =>
    obtain ⟨less, rfl⟩ : ∃ less, depth = less + 2 := Nat.exists_eq_add_of_le' (Nat.le_of_add_left_le h)
    exact .arr (List.forall_mem_singleton.2 (ih (Nat.lt_of_succ_lt_succ h)))

theorem lt_of_nested_nestedLists (h : Json.Nested depth (nestedLists n)) : n < depth := by
  induction n generalizing depth with
  | zero =>
    cases h
    exact Nat.succ_pos _
  | succ n ih =>
    cases h with
    | arr hitems => exact Nat.succ_lt_succ (ih (hitems _ (.head _)))

theorem canonical_nestedLists (n : Nat) : (nestedLists n).canonical = nestedLists n := by
  induction n with
  | zero => rfl
  | succ n ih => exact Json.canonical_arr (List.forall_mem_singleton.2 ih)

theorem numbersReadBack_nestedLists (n : Nat) : (nestedLists n).NumbersReadBack := by
  induction n with
  | zero => exact .null
  | succ n ih => exact .arr (List.forall_mem_singleton.2 ih)

def nestedDocument (n : Nat) : Document :=
  { Document.empty "doc" "Title" "draft" with settings := SortedMap.insert ∅ "x" (nestedLists n) }

def nestedRequest (n : Nat) : CompileRequest := .ofDocument (nestedDocument n)

def nestedFiles (n : Nat) : Files := .within [("doc.json", Wire.document.text (nestedDocument n))]

theorem numbersReadBack_nestedRequest (n : Nat) :
    (Wire.compileRequest.encode (nestedRequest n)).NumbersReadBack := by
  have htwo : (Json.nat 2).NumbersReadBack := .num (Json.readsBack_int (by decide) (by decide))
  have hencode : Wire.compileRequest.encode (nestedRequest n) = .obj [
      ("document", .obj [
        ("id", .str "doc"), ("schemaVersion", .nat 2), ("title", .str "Title"), ("blocks", .arr []),
        ("edges", .arr []), ("variables", .arr []), ("exportRecipes", .arr []), ("tags", .arr []),
        ("statusKey", .str "draft"), ("settings", .obj [("x", nestedLists n)])]),
      ("snippets", .arr []), ("variables", .obj [])] := rfl
  rw [hencode]
  simp [htwo, numbersReadBack_nestedLists n]

theorem ofText_nestedDocument (h : n < 126) :
    Wire.document.ofText (Wire.document.text (nestedDocument n)) = .ok (nestedDocument n) := by
  have hread : (nestedDocument n).ReadsBack 123 := {
    options := fun _ hb => absurd hb List.not_mem_nil
    defaults := fun _ hv => absurd hv List.not_mem_nil
    recipes := fun _ hv => absurd hv List.not_mem_nil
    settings := List.forall_mem_singleton.2 ⟨canonical_nestedLists n, readable_nestedLists h⟩ }
  exact Wire.reads_document.ofText_text (fun _ hb => absurd hb List.not_mem_nil)
    (Wire.carries_document hread)

theorem compiles_nestedRequest (h : n < 126) :
    Compiles (nestedFiles n) [(.document, "doc.json")] (nestedRequest n) := by
  have hfile (text : String) : Files.within [("doc.json", text)] "doc.json" = .ok text := by
    have hnames : (Text.splitBy (· == '/') "doc.json".toList).map String.ofList = ["doc.json"] := by
      decide
    have hbelow : "doc.json".startsWith "/" = false := by decide +kernel
    rw [Files.within, hnames, hbelow]
    rfl
  have hload : load (nestedFiles n) Wire.document "doc.json" = .ok (nestedDocument n) := by
    rw [load, nestedFiles, hfile]
    simp only [ofText_nestedDocument h]
    rfl
  have hpath : (Given.value? [(.document, "doc.json")] .document).getD "" = "doc.json" := rfl
  refine ⟨?_, Bool.noConfusion⟩
  rw [loadRequest, hpath, hload]
  rfl

/-- The document may nest as deep as its file, less two for the message around it. -/
theorem fitsMessage_nestedRequest (h : n < 126) : (nestedRequest n).FitsMessage ↔ n < 124 := by
  have hdecoded := decoded_of_loadRequest (compiles_nestedRequest h).1
  rw [hdecoded.fitsMessage_iff (numbersReadBack_nestedRequest n)]
  refine ⟨fun hless => ?_, fun hless => ⟨{ hdecoded.document with
    metadata := fun _ hb => absurd hb List.not_mem_nil
    recipes := fun _ hv => absurd hv List.not_mem_nil
    settings := List.forall_mem_singleton.2
      ⟨canonical_nestedLists n, (readable_nestedLists hless).nested⟩ },
    fun _ hb => absurd hb List.not_mem_nil⟩⟩
  exact lt_of_nested_nestedLists (hless.document.settings ("x", nestedLists n) (.head _)).2

theorem ofArguments_document : Invocation.ofArguments ["compile", "--document", "doc.json"] =
    .ok ⟨.compile, [(.document, "doc.json")]⟩ := by decide +kernel

/-- A file that can be read, and whose request cannot be sent. -/
theorem run_worker_waits :
    (Wire.compileRequest.encode (nestedRequest 124)).NumbersReadBack ∧
      run? (nestedFiles 124) ["compile", "--document", "doc.json"] =
        some (report (.ok (compileDocument (nestedRequest 124)))) ∧
      run? (nestedFiles 124) ["compile", "--worker", "--document", "doc.json"] = none := by
  have hnumbers := numbersReadBack_nestedRequest 124
  have hcompiles := compiles_nestedRequest (n := 124) (by decide)
  have hdeep : ¬ (nestedRequest 124).FitsMessage :=
    mt (fitsMessage_nestedRequest (by decide)).1 (by decide)
  have hworker : Invocation.ofArguments ["compile", "--worker", "--document", "doc.json"] =
      .ok ⟨.compile, [(.worker, ""), (.document, "doc.json")]⟩ := by
    rw [ofArguments_compile]
    exact of_compile_worker ((ofArguments_compile _).symm.trans ofArguments_document) rfl
  have hcompiles' : Compiles (nestedFiles 124) [(.worker, ""), (.document, "doc.json")]
      (nestedRequest 124) := hcompiles
  refine ⟨hnumbers, ?_, ?_⟩
  · rw [run?_compile ofArguments_document, runCompile_of_compiles hcompiles,
      compileRequest_plain rfl]
    rfl
  · rw [run?_compile hworker, runCompile_of_compiles hcompiles',
      (compileRequest_eq hcompiles.1 hnumbers rfl).2 hdeep]
    rfl

/-- One list less. -/
theorem run_worker_parity_shallow :
    Invocation.ofArguments ["compile", "--document", "doc.json"] =
        .ok ⟨.compile, [(.document, "doc.json")]⟩ ∧
      Compiles (nestedFiles 123) [(.document, "doc.json")] (nestedRequest 123) ∧
      (Wire.compileRequest.encode (nestedRequest 123)).NumbersReadBack ∧
      run? (nestedFiles 123) ["compile", "--worker", "--document", "doc.json"] =
        run? (nestedFiles 123) ["compile", "--document", "doc.json"] := by
  have hnumbers := numbersReadBack_nestedRequest 123
  have hcompiles := compiles_nestedRequest (n := 123) (by decide)
  have hunique : ∀ r, Compiles (nestedFiles 123) [(.document, "doc.json")] r →
      r = nestedRequest 123 := fun r hr => Except.ok.inj (hr.1.symm.trans hcompiles.1)
  have hfits : (nestedRequest 123).FitsMessage :=
    (fitsMessage_nestedRequest (by decide)).2 (by decide)
  have hsame := (run_worker_parity ofArguments_document rfl fun r hr => hunique r hr ▸ hnumbers).2.1
  exact ⟨ofArguments_document, hcompiles, hnumbers, hsame.2 fun r hr => hunique r hr ▸ hfits⟩

end Depth
end DocCompiler.CommandLine
