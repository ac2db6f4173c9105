import ClassLift.Proofs.Json.Form
import ClassLift.Proofs.Tree.RoundTrip

/-!
How the JSON text of a document may be written. Whatever is left to the writer makes no difference to
the document that is read. What the writer owes, the text has to have once.
-/

namespace ClassLift

open Json Reader

/- Documentation -/

namespace Doc

def Param.fields : List Field := [
    .required "name" .leaf,
    .optional "typeExpr" .null .leaf]

theorem Param.describes : Describes fields members {} Draft.finish where
  apart := by
    simp only [members, List.pairwise_cons, List.mem_cons, forall_eq_or_imp, List.not_mem_nil, false_implies,
      implies_true, List.Pairwise.nil, and_true]
    exact .of (by decide) (fun _ _ => rfl) (fun _ _ => rfl) (fun _ _ _ => rfl)
  members :=
    .cons (.of_required settled_text.conforms (fun _ _ => rfl) fun _ h => by simp [Draft.finish, h]) <|
    .cons (.of_optional settled_text.orNull.conforms (fun _ _ => rfl) (b := none) (fun _ => rfl)
      fun _ h => by simp [Draft.finish, h]) .nil
  fresh := by simp [members, Member.of]

def fields : List Field := [
    .optional "isConstructor" (.bool false) .leaf,
    .optional "baseType" .null .leaf,
    .optional "params" (.array []) (.list (.record Param.fields)),
    .optional "returnType" .null .leaf,
    .optional "description" .null .leaf]

theorem describes : Describes fields members {} Draft.finish where
  apart := by
    simp only [members, List.pairwise_cons, List.mem_cons, forall_eq_or_imp, List.not_mem_nil, false_implies,
      implies_true, List.Pairwise.nil, and_true]
    and_intros
    all_goals exact .of (by decide) (fun _ _ => rfl) (fun _ _ => rfl) (fun _ _ _ => rfl)
  members := by
    have orNull {finish : Draft → Option Doc} {key : String} {get : Draft → Option (Option String)}
      {set : Option String → Draft → Draft} (reads : ∀ b s, (get (set b s)).isSome)
      (same : ∀ s, get s = none → finish (set none s) = finish s) :
      Holds finish (Member.of key get set text.orNull) (.optional key .null .leaf) :=
      .of_optional settled_text.orNull.conforms reads (b := none) (fun _ => rfl) same
    exact .cons (.of_optional settled_bool.conforms (fun _ _ => rfl) (reads_bool false)
        fun _ h => by simp [Draft.finish, h]) <|
      .cons (orNull (fun _ _ => rfl) fun _ h => by simp [Draft.finish, h]) <|
      .cons (.of_optional Param.describes.conforms.list (fun _ _ => rfl) (.list .nil)
        fun _ h => by simp [Draft.finish, h]) <|
      .cons (orNull (fun _ _ => rfl) fun _ h => by simp [Draft.finish, h]) <|
      .cons (orNull (fun _ _ => rfl) fun _ h => by simp [Draft.finish, h]) .nil
  fresh := by simp [members, Member.of]

end Doc

/- Nodes -/

theorem Kind.conforms : reader.Conforms .leaf :=
  settled_tag.mapExcept.conforms

theorem Flags.conforms : reader.Conforms .leaf :=
  settled_text.mapExcept.conforms

theorem Ref.conforms : reader.Conforms .leaf :=
  settled_word.mapExcept.conforms

theorem Ref.reads_none : reader.Reads (.number nothing) none :=
  Fits.reads (r := none) nofun

namespace Node

def fields : List Field := [
    .required "kind" .leaf,
    .optional "flags" (.text "") .leaf,
    .optional "pos" (.number 0) .leaf,
    .optional "end" (.number 0) .leaf,
    .optional "data_index" (.number nothing) .leaf,
    .optional "jsdoc" .null .leaf,
    .optional "parent" (.number nothing) .leaf,
    .optional "children" (.array []) (.list .leaf)]

theorem describes : Describes fields jsonMembers {} Draft.finish where
  apart := by
    simp only [jsonMembers, List.pairwise_cons, List.mem_cons, forall_eq_or_imp, List.not_mem_nil,
      false_implies, implies_true, List.Pairwise.nil, and_true]
    and_intros
    all_goals exact .of (by decide) (fun _ _ => rfl) (fun _ _ => rfl) (fun _ _ _ => rfl)
  members :=
    .cons (.of_required Kind.conforms (fun _ _ => rfl) fun _ h => by simp [Draft.finish, h]) <|
    .cons (.of_optional Flags.conforms (fun _ _ => rfl) (Flags.reads {})
      fun _ h => by simp [Draft.finish, h]) <|
    .cons (.of_optional settled_word.conforms (fun _ _ => rfl) (reads_toNat 0)
      fun _ h => by simp [Draft.finish, h]) <|
    .cons (.of_optional settled_word.conforms (fun _ _ => rfl) (reads_toNat 0)
      fun _ h => by simp [Draft.finish, h]) <|
    .cons (.of_optional Ref.conforms (fun _ _ => rfl) Ref.reads_none
      fun _ h => by simp [Draft.finish, h]) <|
    .cons (.of_optional settled_word.orNull.conforms (fun _ _ => rfl) (b := none) (fun _ => rfl)
      fun _ h => by simp [Draft.finish, h]) <|
    .cons (.of_optional Ref.conforms (fun _ _ => rfl) Ref.reads_none
      fun _ h => by simp [Draft.finish, h]) <|
    .cons (.of_optional Ref.conforms.list (fun _ _ => rfl) (.list .nil)
      fun _ h => by simp [Draft.finish, h]) .nil
  fresh := by simp [jsonMembers, Member.of]

end Node

/- Forests and documents -/

theorem describes_wrapped (key : String) : Describes [.required key .leaf]
    [.of key id (fun text _ => some text) .text] none id where
  apart   := List.pairwise_singleton ..
  members := .cons (.of_required settled_text.conforms (fun _ _ => rfl) fun _ h => h) .nil
  fresh   := by simp [Member.of]

namespace Forest

def fields : List Field := [
    .required "nodes" (.list (.record Node.fields)),
    .optional "identifiers" (.array []) (.list (.record [.required "escaped_text" .leaf])),
    .optional "source_files" (.array []) (.list (.record [.required "fileName" .leaf])),
    .optional "jsdocs" (.array []) (.list (.record Doc.fields))]

theorem describes : Describes fields jsonMembers {} Draft.finish where
  apart := by
    simp only [jsonMembers, List.pairwise_cons, List.mem_cons, forall_eq_or_imp, List.not_mem_nil,
      false_implies, implies_true, List.Pairwise.nil, and_true]
    and_intros
    all_goals exact .of (by decide) (fun _ _ => rfl) (fun _ _ => rfl) (fun _ _ _ => rfl)
  members :=
    .cons (.of_required Node.describes.conforms.list (fun _ _ => rfl) fun _ h => by simp [Draft.finish, h]) <|
    .cons (.of_optional (describes_wrapped _).conforms.list (fun _ _ => rfl) (.list .nil)
      fun _ h => by simp [Draft.finish, h]) <|
    .cons (.of_optional (describes_wrapped _).conforms.list (fun _ _ => rfl) (.list .nil)
      fun _ h => by simp [Draft.finish, h]) <|
    .cons (.of_optional Doc.describes.conforms.list (fun _ _ => rfl) (.list .nil)
      fun _ h => by simp [Draft.finish, h]) .nil
  fresh := by simp [jsonMembers, Member.of]

end Forest

namespace Document

def fields : List Field := [
    .required "root" .leaf,
    .required "arena" (.record Forest.fields)]

theorem describes : Describes fields jsonMembers {} Draft.finish where
  apart := by
    simp only [jsonMembers, List.pairwise_cons, List.mem_cons, forall_eq_or_imp, List.not_mem_nil,
      false_implies, implies_true, List.Pairwise.nil, and_true]
    exact .of (by decide) (fun _ _ => rfl) (fun _ _ => rfl) (fun _ _ _ => rfl)
  members :=
    .cons (.of_required Ref.conforms (fun _ _ => rfl) fun _ h => by simp [Draft.finish, h]) <|
    .cons (.of_required Forest.describes.conforms (fun _ _ => rfl)
      fun _ h => by simp [Draft.finish, h]) .nil
  fresh := by simp [jsonMembers, Member.of]

def form : Form := .record fields

variable {d : Document} {t : Tree} {w : List Char}

theorem ofText_of_gives (written : Spaced t.Writes w) (gives : reader.Gives t d) :
    ofText (String.ofList w) = d.accept := by
  have now := gives []
  rw [List.append_nil] at now
  rw [ofText, Reader.read, String.toList_ofList, Tree.scan_of_writes written, now]

theorem ofText_of_refuses (written : Spaced t.Writes w) (refuses : reader.Refuses t) :
    ofText (String.ofList w) = .error .malformed := by
  obtain ⟨e, he⟩ := refuses []
  rw [List.append_nil] at he
  rw [ofText, Reader.read, String.toList_ofList, Tree.scan_of_writes written, he]

-- A text that presents a document is read as the text that it is written as. A text without a
-- required member or with a second one for a field, anywhere in a document, is never read.
theorem ofText_presented :
    (∀ d : Document, d.root.Fits → (∀ n ∈ d.forest.nodes, n.Fits) →
      ∀ t w, form.Presents d.toJson t → Spaced t.Writes w →
        ofText (String.ofList w) = ofText (d.toText .compact) ∧
        ofText (String.ofList w) = ofText (d.toText .pretty) ∧ ofText (String.ofList w) = d.accept) ∧
    ∀ t w, form.Defective t → Spaced t.Writes w → ofText (String.ofList w) = .error .malformed := by
  constructor
  case left =>
    intro d root nodes t w presents written
    have reads := reads root nodes
    have read := ofText_of_gives written (describes.conforms.presents presents reads)
    have back {l : Layout} (spaced : l.Spaced) : ofText (d.toText l) = d.accept := by
      rw [ofText, toText, reads.read spaced]
    exact ⟨read.trans (back Layout.spaced_compact).symm, read.trans (back Layout.spaced_pretty).symm,
      read⟩
  case right =>
    intro t w defective written
    exact ofText_of_refuses written (describes.conforms.defective defective)

-- A text without anything that may be left out, in another order and with a member that nobody asks for.
def lone : Document where
  root := some 0
  forest := { nodes := #[{ kind := .root }] }

def sparse : Value := .object [
    ("x", .array [.null]),
    ("arena", .object [("nodes", .array [.object [("kind", .text "Root")]])]),
    ("root", .number 0)]

theorem presents_sparse : form.Presents lone.toJson sparse.asTree := by
  -- The field of a member is found by its position among the fields.
  have kept {fields : List Json.Field} {key : String} {default? : Option Value} {form : Form} {v : Value}
      {t : Tree} {ms : List (String × Value)} {tms : List (Option String × Tree)} (i : Nat)
      (known : fields[i]? = some { key, default?, form }) (presents : form.Presents v t)
      (rest : Shows fields ms tms) : Shows fields ((key, v) :: ms) ((some key, t) :: tms) :=
    .kept (List.mem_of_getElem? known) presents rest
  have omitted {fields : List Json.Field} {key : String} {v : Value} {form : Form}
      {ms : List (String × Value)} {tms : List (Option String × Tree)} (i : Nat)
      (known : fields[i]? = some (.optional key v form)) (rest : Shows fields ms tms) :
      Shows fields ((key, v) :: ms) tms :=
    .omitted (List.mem_of_getElem? known) rfl rest
  have node : Shows Node.fields [("kind", .text "Root"), ("flags", .text ""), ("pos", .number 0),
      ("end", .number 0), ("data_index", .number nothing), ("jsdoc", .null), ("parent", .number nothing),
      ("children", .array [])] [(some "kind", .text (some "Root"))] :=
    kept 0 rfl rfl <| omitted 1 rfl <| omitted 2 rfl <| omitted 3 rfl <| omitted 4 rfl <| omitted 5 rfl <|
      omitted 6 rfl <| omitted 7 rfl .nil
  have nodes : (Form.list (.record Node.fields)).Presents (.array [Node.toJson { kind := .root }])
      (.array [.object [(some "kind", .text (some "Root"))]]) :=
    ⟨_, _, rfl, rfl, .cons ⟨_, _, rfl, rfl, node⟩ .nil⟩
  have arena : (Form.record Forest.fields).Presents lone.forest.toJson
      (.object [(some "nodes", .array [.object [(some "kind", .text (some "Root"))]])]) :=
    ⟨_, _, rfl, rfl, kept 0 rfl nodes <| omitted 1 rfl <| omitted 2 rfl <| omitted 3 rfl .nil⟩
  have both : Shows fields [("root", lone.root.toJson), ("arena", lone.forest.toJson)] _ :=
    kept 0 rfl rfl <| kept 1 rfl arena .nil
  exact ⟨_, _, rfl, rfl, .inserted (by decide) <| .permuted (.swap ..) both⟩

-- The nodes are there twice.
def twofold : Value :=
  .object [("root", .number 0), ("arena", .object [("nodes", .array []), ("nodes", .array [])])]

theorem defective_twofold : form.Defective twofold.asTree := by
  have forest : (Form.record Forest.fields).Defective
      (.object [(some "nodes", .array []), (some "nodes", .array [])]) :=
    ⟨_, rfl, .repeated (List.mem_of_getElem? (i := 0) rfl) (.cons_mem (by decide))⟩
  exact ⟨_, rfl, .within (List.mem_of_getElem? (i := 1) rfl) (.tail _ (.head _)) forest⟩

theorem ofText_presented_sparse : lone.root.Fits ∧ (∀ n ∈ lone.forest.nodes, n.Fits) ∧
    form.Presents lone.toJson sparse.asTree ∧ Spaced sparse.asTree.Writes (sparse.write .pretty 0) ∧
    ofText (String.ofList (sparse.write .pretty 0)) = ofText (lone.toText .compact) ∧
    ofText (String.ofList (sparse.write .pretty 0)) = ofText (lone.toText .pretty) ∧
    ofText (String.ofList (sparse.write .pretty 0)) = .ok lone ∧
    form.Defective twofold.asTree ∧ Spaced twofold.asTree.Writes (twofold.write .compact 0) ∧
    ofText (String.ofList (twofold.write .compact 0)) = .error .malformed := by
  have root : lone.root.Fits := by
    rintro _ ⟨⟩
    decide
  have nodes : ∀ n ∈ lone.forest.nodes, n.Fits := by
    simp only [lone, List.mem_toArray, List.mem_singleton, forall_eq]
    exact ⟨nofun, nofun, nofun, nofun⟩
  have accepted : lone.accept = .ok lone := by decide +kernel
  have written := sparse.spaced_write Layout.spaced_pretty
  have written' := twofold.spaced_write Layout.spaced_compact
  have ⟨compact, pretty, result⟩ :=
    ofText_presented.1 lone root nodes sparse.asTree (sparse.write .pretty 0) presents_sparse written
  have refused :=
    ofText_presented.2 twofold.asTree (twofold.write .compact 0) defective_twofold written'
  exact ⟨root, nodes, presents_sparse, written, compact, pretty, result.trans accepted, defective_twofold,
    written', refused⟩

end Document

end ClassLift
