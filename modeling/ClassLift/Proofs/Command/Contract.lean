import ClassLift.Command.Run
import ClassLift.Proofs.Command.Folder
import ClassLift.Proofs.Convert.Displaced
import ClassLift.Proofs.Convert.Numbers
import ClassLift.Proofs.Convert.Outcome

/-!
What the command promises: when it fails, what it prints, and what becomes of the files. It holds on every
disk that keeps files, whatever the disk refuses to read or to write.
-/

namespace ClassLift

variable {α β σ φ : Type} {disk : Disk (StateM σ)} {file? : σ → φ → Option String}
variable {leads : σ → String → φ → Prop} {d d' d'' : σ} {args : Arguments} {path : String} {c : Converted}
variable {options : Options}

-- The command line wins over the file.
def Arguments.override (args : Arguments) (options : Options) : Options :=
  if args.noStaticMerge then { options with mergeStaticMethods := false } else options

def Arguments.layout (args : Arguments) : Json.Layout :=
  if args.pretty then .pretty else .compact

theorem Arguments.spaced_layout (args : Arguments) : args.layout.Spaced := by
  unfold layout
  split
  case isTrue  => exact Json.Layout.spaced_pretty
  case isFalse => exact Json.Layout.spaced_compact

namespace Command

-- The options are those of the file that is named, or else the usual ones.
inductive Chooses (disk : Disk (StateM σ)) (d : σ) (args : Arguments) : Options → Prop
  | usual (config : args.config = none) : Chooses disk d args (args.override {})
  | given {path text : String} {options : Options} (config : args.config = some path)
    (found : disk.found d path = .ok text) (read : Options.ofText text = .ok options) :
    Chooses disk d args (args.override options)

-- There are options and a document, and the conversion of the document ends well.
inductive Succeeds (disk : Disk (StateM σ)) (d : σ) (args : Arguments) : Converted → Prop
  | intro {options : Options} {text : String} {document : Document} {summary : Summary} {forest : Forest}
    (chosen : Chooses disk d args options) (found : disk.found d args.input = .ok text)
    (read : Document.ofText text = .ok document)
    (converted : document.forest.convert options document.root = (.ok summary, forest)) :
    Succeeds disk d args { document := { document with forest }, summary }

/- Steps of a run -/

-- What a step gives on a disk, and the disk that it leaves.
def Leaves (step : ExceptT Fatal (StateM σ) α) (d : σ) (r : Except Fatal α) (d' : σ) : Prop :=
  step.run.run d = (r, d')

section Steps

variable {x : ExceptT Fatal (StateM σ) α} {k : α → ExceptT Fatal (StateM σ) β} {a : α} {e : Fatal}
variable {r : Except Fatal β} {s s' : Except Fatal α} {text : String}

theorem Leaves.bind_ok (h : Leaves x d (.ok a) d') (h' : Leaves (k a) d' r d'') : Leaves (x >>= k) d r d'' := by
  rw [Leaves] at h
  rw [Leaves, ExceptT.run_bind, StateT.run_bind, h]
  exact h'

theorem Leaves.bind_error (h : Leaves x d (.error e) d') : Leaves (x >>= k) d (.error e) d' := by
  rw [Leaves] at h
  rw [Leaves, ExceptT.run_bind, StateT.run_bind, h]
  rfl

theorem leaves_pure (a : α) : Leaves (pure a) d (.ok a) d := rfl

theorem leaves_throw (e : Fatal) : Leaves (throw e : ExceptT Fatal (StateM σ) α) d (.error e) d := rfl

theorem leaves_mk (same : s = s') : Leaves (.mk (pure s)) d s' d := same ▸ rfl

theorem leaves_liftM {x : StateM σ α} (h : x.run d = (a, d')) : Leaves (liftM x) d (.ok a) d' :=
  congrArg (fun p : α × σ => (Except.ok p.1, p.2)) h

theorem leaves_read (files : disk.HasFiles file? leads) {r : Except FileError String}
    (found : disk.found d path = r) : Leaves (liftM (disk.read path)) d (.ok r) d :=
  leaves_liftM (Prod.ext found (files.read_keeps d path))

theorem leaves_put {r : Except FileError Unit} (written : disk.written d path text = (r, d')) :
    Leaves (liftM (disk.write path text)) d (.ok r) d' :=
  leaves_liftM written

end Steps

/- Reading -/

section Reading

variable (files : disk.HasFiles file? leads)
include files

theorem Chooses.leaves (h : Chooses disk d args options) :
    Leaves (readOptions disk args) d (.ok options) d := by
  unfold readOptions
  cases h
  case usual config =>
    rw [config]
    exact .bind_ok (leaves_pure _) (leaves_pure _)
  case given path text options config found read =>
    rw [config]
    exact .bind_ok (leaves_read files found) (.bind_ok (leaves_mk (by rw [read]; rfl)) (leaves_pure _))

theorem leaves_of_not_chooses (h : ∀ options, ¬Chooses disk d args options) :
    ∃ e, Leaves (readOptions disk args) d (.error e) d := by
  unfold readOptions
  cases config : args.config
  case none => exact absurd (.usual config) (h _)
  case some path =>
    cases found : disk.found d path
    case error e => exact ⟨_, .bind_ok (leaves_read files found) (.bind_error (leaves_throw _))⟩
    case ok text =>
      cases read : Options.ofText text
      case error e =>
        exact ⟨_, .bind_ok (leaves_read files found) (.bind_error (leaves_mk (by rw [read]; rfl)))⟩
      case ok options => exact absurd (.given config found read) (h _)

theorem leaves_readDocument {text : String} (found : disk.found d path = .ok text) :
    Leaves (readDocument disk path) d ((Document.ofText text).mapError (.parseDocument path)) d :=
  .bind_ok (leaves_read files found) (leaves_mk rfl)

theorem leaves_readDocument_error {err : FileError} (missing : disk.found d path = .error err) :
    Leaves (readDocument disk path) d (.error (.readDocument path err)) d :=
  .bind_ok (leaves_read files missing) (leaves_throw _)

/- Converting -/

theorem Succeeds.leaves (h : Succeeds disk d args c) : Leaves (convert disk args) d (.ok c) d := by
  cases h
  case intro options text document summary forest chosen found read converted =>
    have loaded := leaves_readDocument files found
    rw [read] at loaded
    refine .bind_ok (chosen.leaves files) (.bind_ok loaded ?_)
    rw [converted]
    exact leaves_pure _

theorem leaves_of_not_succeeds (h : ∀ c, ¬Succeeds disk d args c) :
    ∃ e, Leaves (convert disk args) d (.error e) d := by
  by_cases options : ∃ options, Chooses disk d args options
  case neg =>
    have ⟨e, failed⟩ := leaves_of_not_chooses files fun o ho => options ⟨o, ho⟩
    exact ⟨e, .bind_error failed⟩
  case pos =>
    have ⟨options, chosen⟩ := options
    cases found : disk.found d args.input
    case error e =>
      exact ⟨_, .bind_ok (chosen.leaves files) (.bind_error (leaves_readDocument_error files found))⟩
    case ok text =>
      have loaded := leaves_readDocument files found
      cases read : Document.ofText text <;> rw [read] at loaded
      case error e => exact ⟨_, .bind_ok (chosen.leaves files) (.bind_error loaded)⟩
      case ok document =>
        rcases converted : document.forest.convert options document.root with ⟨e | summary, forest⟩
        case error =>
          refine ⟨.convert args.input e, .bind_ok (chosen.leaves files) (.bind_ok loaded ?_)⟩
          rw [converted]
          exact leaves_throw _
        case ok => exact absurd (.intro chosen found read converted) (h _)

theorem Succeeds.unique {c' : Converted} (h : Succeeds disk d args c) (h' : Succeeds disk d args c') :
    c = c' := by
  have same := (h.leaves files).symm.trans (h'.leaves files)
  exact Except.ok.inj (Prod.ext_iff.mp same).left

end Reading

/- Writing -/

theorem leaves_write_none (output : args.output = none) (document : Document) :
    Leaves (write disk args document) d (.ok (some (document.toText args.layout))) d := by
  unfold write
  rw [output]
  exact leaves_pure _

theorem leaves_write_ok {document : Document} (output : args.output = some path)
    (written : disk.written d path (document.toText args.layout) = (.ok (), d')) :
    Leaves (write disk args document) d (.ok none) d' := by
  unfold write
  rw [output]
  exact .bind_ok (leaves_put written) (leaves_pure _)

theorem leaves_write_error {document : Document} {err : FileError} (output : args.output = some path)
    (refused : disk.written d path (document.toText args.layout) = (.error err, d')) :
    Leaves (write disk args document) d (.error (.writeOutput path err)) d' := by
  unfold write
  rw [output]
  exact .bind_ok (leaves_put refused) (leaves_throw _)

/- Whole runs -/

theorem run_of_failed {e : Fatal} (h : Leaves (convert disk args) d (.error e) d) :
    (run disk args).run d = (failed "" e, d) := by
  rw [Leaves] at h
  rw [run, StateT.run_bind, h]
  rfl

theorem run_of_refused {e : Fatal} (h : Leaves (convert disk args) d (.ok c) d)
    (h' : Leaves (write disk args c.document) d (.error e) d') :
    ∃ printed, (run disk args).run d = (printed, d') ∧ printed.status = fatalStatus ∧ printed.out = "" := by
  rw [Leaves] at h h'
  refine ⟨failed (if args.dumpTree then c.document.trees ++ "\n" else "") e, ?_, rfl, rfl⟩
  rw [run, StateT.run_bind, h]
  change StateT.run (_ >>= _) d = _
  rw [StateT.run_bind, h']
  rfl

theorem run_of_written {text : Option String} (h : Leaves (convert disk args) d (.ok c) d)
    (h' : Leaves (write disk args c.document) d (.ok text) d') :
    ∃ printed, (run disk args).run d = (printed, d') ∧
      printed.status = (if c.summary.findings = [] then 0 else findingsStatus) ∧
      printed.out = text.elim "" (· ++ "\n") := by
  rw [Leaves] at h h'
  rw [run, StateT.run_bind, h]
  change ∃ printed, StateT.run (_ >>= _) d = _ ∧ _
  rw [StateT.run_bind, h']
  cases found : c.summary.findings
  case nil => exact ⟨_, by rfl, rfl, rfl⟩
  case cons => exact ⟨_, rfl, rfl, rfl⟩

-- What has been converted is read again as what it is, as long as its nodes and texts have numbers.
theorem Succeeds.reads_back (h : Succeeds disk d args c) (size : c.document.forest.size < nothing)
    (texts : c.document.forest.texts.size ≤ nothing) :
    Document.ofText (c.document.toText args.layout) = .ok c.document := by
  cases h
  case intro options text document summary forest chosen found read converted =>
    have ⟨root, checked, small⟩ := Document.of_ofText read
    have v := Forest.valid_of_check checked
    have series := series_of_ok v converted
    have valid := valid_convert v options document.root
    rw [converted] at valid
    exact Document.ofText_toText_of_spaced args.spaced_layout ((series.small small).fits valid size texts)
      (series.toured.progress.ext.has root) (Forest.check_of_valid valid)

-- A run that fails before it writes changes nothing. Otherwise the text goes to the output, or to the file
-- that is named, and no other file changes, also when the write fails.
theorem execute_contract (files : disk.HasFiles file? leads) {arguments : List String}
    (accepted : Arguments.read arguments = .ok args) (d : σ) :
    ∃ printed d', (execute disk arguments).run d = (printed, d') ∧
      ((∀ c, ¬Succeeds disk d args c) → printed.status = 2 ∧ printed.out = "" ∧ d' = d) ∧
      ∀ c, Succeeds disk d args c →
        let text := c.document.toText args.layout
        let status := if c.summary.findings = [] then 0 else 1
        (args.output = none → printed.status = status ∧ printed.out = text ++ "\n" ∧ d' = d) ∧
        (∀ path, args.output = some path →
          let written := disk.written d path text
          d' = written.2 ∧ printed.out = "" ∧
          (∀ e, written.1 = .error e → printed.status = 2) ∧
          (written.1 = .ok () →
            printed.status = status ∧ ∀ file, leads d path file → file? d' file = some text) ∧
          ∀ file, ¬leads d path file → file? d' file = file? d file) ∧
        (c.document.forest.size < nothing → c.document.forest.texts.size ≤ nothing →
          Document.ofText text = .ok c.document) := by
  rw [execute, accepted]
  by_cases ok : ∃ c, Succeeds disk d args c
  case neg =>
    have never (c : Converted) (h : Succeeds disk d args c) : False := ok ⟨c, h⟩
    have ⟨e, failed⟩ := leaves_of_not_succeeds files never
    exact ⟨_, d, run_of_failed failed, fun _ => ⟨rfl, rfl, rfl⟩, fun c h => absurd h (never c)⟩
  case pos =>
    have ⟨c, succeeds⟩ := ok
    have some (never : ∀ c, ¬Succeeds disk d args c) : False := never c succeeds
    have only {P : Converted → Prop} (h : P c) : ∀ c, Succeeds disk d args c → P c :=
      fun _ other => succeeds.unique files other ▸ h
    have ready := succeeds.leaves files
    cases output : args.output
    case none =>
      have ⟨printed, ran, status, out⟩ := run_of_written ready (leaves_write_none output c.document)
      refine ⟨printed, d, ran, fun never => (some never).elim, only ⟨?_, nofun, succeeds.reads_back⟩⟩
      intro _
      exact ⟨status, out, rfl⟩
    case some path =>
      have named (file : φ) := files.write_ok d path (c.document.toText args.layout) file
      have other (file : φ) := files.write_other d path (c.document.toText args.layout) file
      rcases written : disk.written d path (c.document.toText args.layout) with ⟨e | _, d'⟩ <;>
        rw [written] at named other
      case error =>
        have ⟨printed, ran, status, out⟩ := run_of_refused ready (leaves_write_error output written)
        refine ⟨printed, d', ran, fun never => (some never).elim, only ⟨nofun, ?_, succeeds.reads_back⟩⟩
        intro _ same
        cases same
        rw [written]
        exact ⟨rfl, out, fun _ _ => status, nofun, other⟩
      case ok =>
        have ⟨printed, ran, status, out⟩ := run_of_written ready (leaves_write_ok output written)
        refine ⟨printed, d', ran, fun never => (some never).elim, only ⟨nofun, ?_, succeeds.reads_back⟩⟩
        intro _ same
        cases same
        rw [written]
        exact ⟨rfl, out, nofun, fun _ => ⟨status, fun file => named file rfl⟩, other⟩

-- The document of the samples before and after its conversion.
def before : Document where
  root   := some 0
  forest := sample

def after : Document :=
  { before with forest := (sample.foldScript {} (some 0)).2.forest }

-- A document in a folder of its own, and another folder that refuses all reads and writes.
def guarded : FileMap where
  working  := ["home", "work"]
  file? place    := if place = ["data", "in.json"] then some (before.toText .compact) else none
  refusal? place := if place.head? = some "etc" then some (.other "Permission denied (os error 13)") else none

theorem succeeds_sample (usual : args.override {} = {}) (config : args.config = none)
    (found : disk.found d args.input = .ok (before.toText .compact)) :
    Succeeds disk d args ⟨after, (sample.foldScript {} (some 0)).2.summary⟩ := by
  have fits : before.forest.Fits := ⟨by decide, by decide, by decide⟩
  have read : Document.ofText (before.toText .compact) = .ok before :=
    Document.ofText_toText_of_spaced Json.Layout.spaced_compact fits rfl sample_check
  have chosen : Chooses disk d args {} := usual ▸ .usual config
  exact .intro chosen found read sample_convert

-- The text is written next to the document, to another folder, and not at all where this is refused.
theorem execute_contract_sample :
    let text := after.toText .compact
    let folder : Folder := { files := [("in.json", before.toText .compact)] }
    (∃ printed d', (execute Folder.disk ["in.json", "-o", "./out.json"]).run folder = (printed, d') ∧
      printed.status = 0 ∧ d'.file? "out.json" = some text ∧ d'.file? "in.json" = folder.file? "in.json" ∧
      Document.ofText text = .ok after) ∧
    (∃ printed d', (execute FileMap.disk ["/data/in.json", "-o", "../out.json"]).run guarded = (printed, d') ∧
      printed.status = 0 ∧ d'.file? ["home", "out.json"] = some text ∧
      d'.file? ["data", "in.json"] = some (before.toText .compact)) ∧
    ∃ printed, (execute FileMap.disk ["/data/in.json", "-o", "/etc/out.json"]).run guarded = (printed, guarded) ∧
      printed.status = 2 := by
  intro text folder
  refine ⟨?beside, ?above, ?refused⟩
  case beside =>
    have accepted : Arguments.read ["in.json", "-o", "./out.json"] =
        .ok { input := "in.json", output := some "./out.json" } := rfl
    have ⟨printed, d', ran, _, done⟩ := execute_contract Folder.hasFiles accepted folder
    have ⟨_, written, back⟩ := done _ (succeeds_sample rfl rfl rfl)
    have ⟨_, _, _, ok, other⟩ := written _ rfl
    have ⟨status, named⟩ := ok rfl
    have names : Folder.Names "./out.json" "out.json" := ⟨_, rfl, rfl, rfl, by decide⟩
    refine ⟨printed, d', ran, status, named "out.json" names, other "in.json" ?_, back ?_ ?_⟩
    · exact fun named => absurd (named.unique names) (by decide)
    all_goals decide
  case above =>
    have accepted : Arguments.read ["/data/in.json", "-o", "../out.json"] =
        .ok { input := "/data/in.json", output := some "../out.json" } := rfl
    have ⟨printed, d', ran, _, done⟩ := execute_contract FileMap.hasFiles accepted guarded
    have ⟨_, written, _⟩ := done _ (succeeds_sample rfl rfl rfl)
    have ⟨_, _, _, ok, other⟩ := written _ rfl
    have ⟨status, named⟩ := ok rfl
    exact ⟨printed, d', ran, status, named ["home", "out.json"] rfl, other ["data", "in.json"] (by decide)⟩
  case refused =>
    have accepted : Arguments.read ["/data/in.json", "-o", "/etc/out.json"] =
        .ok { input := "/data/in.json", output := some "/etc/out.json" } := rfl
    have ⟨printed, d', ran, _, done⟩ := execute_contract FileMap.hasFiles accepted guarded
    have ⟨_, written, _⟩ := done _ (succeeds_sample rfl rfl rfl)
    have ⟨same, _, refused, _⟩ := written _ rfl
    cases same
    exact ⟨printed, ran, refused _ rfl⟩

end Command

end ClassLift
