import ClassLift.Proofs.Tree.Flags
import ClassLift.Proofs.Tree.Linked
import ClassLift.Tree.Document

/-!
A document that is written reads back as the same document, in either layout. What is read back is
checked again, so the document has to be one that the check accepts.
-/

namespace ClassLift

open Json Reader

/- Documentation -/

theorem Doc.Param.reads (p : Param) : reader.Reads p.toJson p :=
  Fills.reads_record (s := { name := some p.name, type := some p.type })
    (.cons rfl rfl ((reads_text _).map _) <| .cons rfl rfl ((reads_orNull_text _).map _) .nil) rfl

-- If there are no parameters then the member for them is neither written nor read.
theorem Doc.reads (d : Doc) : reader.Reads d.toJson d := by
  obtain ⟨isConstructor, baseType, params, returnType, description⟩ := d
  have around {between : List (String × Value)} {params : Option (List Param)}
      (h : Fills members { isConstructor := some isConstructor, baseType := some baseType } between
        { isConstructor := some isConstructor, baseType := some baseType, params }) :
      Fills members {}
        ([("isConstructor", .bool isConstructor), ("baseType", .ofOption .text baseType)] ++ between ++
          [("returnType", .ofOption .text returnType), ("description", .ofOption .text description)])
        { isConstructor := some isConstructor, baseType := some baseType, params,
          returnType := some returnType, description := some description } := by
    refine .cons rfl rfl ((reads_bool _).map _) <|
      .cons rfl rfl ((reads_orNull_text _).map _) <| h.append ?_
    exact .cons rfl rfl ((reads_orNull_text _).map _) <| .cons rfl rfl ((reads_orNull_text _).map _) .nil
  cases params
  case nil => exact (around .nil).reads_record rfl
  case cons p ps =>
    exact (around (.cons rfl rfl ((Reads.list_map fun p _ => p.reads).map _) .nil)).reads_record rfl

/- Nodes -/

-- A number other than the one that stands for nothing.
def Ref.Fits (r : Ref) : Prop :=
  ∀ i ∈ r, i < nothing

theorem Ref.Fits.reads {r : Ref} (h : r.Fits) : Ref.reader.Reads r.toJson r := by
  have small : r.toNumber < UInt32.size := by
    cases r
    case none => decide
    case some i => exact Nat.lt_trans (h i rfl) (by decide)
  have read := (reads_word small).map (Ref.ofNumber ·.toNat)
  have number : r.toNumber.toUInt32.toNat = r.toNumber := UInt32.toNat_ofNat_of_lt small
  rwa [number, Ref.ofNumber_toNumber] at read
  rintro rfl
  exact Nat.lt_irrefl _ (h _ rfl)

theorem Kind.reads (k : Kind) : reader.Reads (.text k.name) k :=
  (reads_tag _).mapExcept (by rw [ofName?_name])

theorem Flags.reads (f : Flags) : reader.Reads (.text f.toText) f :=
  (reads_text _).mapExcept (by rw [ofText?_toText])

structure Node.Fits (n : Node) : Prop where
  data     : ∀ d ∈ n.data, d < nothing
  doc      : ∀ d ∈ n.doc, d < UInt32.size
  parent   : n.parent.Fits
  children : ∀ c ∈ n.children, c.Fits

theorem Node.Fits.reads {n : Node} (h : n.Fits) : Node.reader.Reads n.toJson n := by
  have data : Ref.reader.Reads (Ref.toJson n.data) n.data := Ref.Fits.reads h.data
  have doc := Reads.orNull (r := word) (o := n.doc) fun d hd => ⟨reads_word (h.doc d hd), by simp⟩
  have number : (n.doc.map Nat.toUInt32).map UInt32.toNat = n.doc := by
    cases e : n.doc
    case none => rfl
    case some d => exact congrArg some (UInt32.toNat_ofNat_of_lt (h.doc d e))
  refine Fills.reads_record (.cons rfl rfl (n.kind.reads.map _) <| .cons rfl rfl (n.flags.reads.map _) <|
    .cons rfl rfl ((reads_toNat n.pos).map _) <| .cons rfl rfl ((reads_toNat n.stop).map _) <|
    .cons rfl rfl (data.map _) <| .cons rfl rfl (doc.map _) <|
    .cons rfl rfl (h.parent.reads.map _) <|
    .cons rfl rfl ((Reads.list_map fun c hc => (h.children c hc).reads).map _) .nil) ?_
  simp [Draft.finish, number]

/- Forests and documents -/

theorem reads_wrapped (key text : String) : (wrapped key).Reads (wrap key text) text := by
  have named : [Member.of key id (fun text _ => some text) Reader.text].find? (·.key == key) =
      some (Member.of key id (fun text _ => some text) Reader.text) := by
    simp [Member.of]
  exact Fills.reads_record (.cons named rfl ((reads_text _).map _) .nil) rfl

theorem Forest.reads {f : Forest} (h : ∀ n ∈ f.nodes, n.Fits) : reader.Reads f.toJson f := by
  refine Fills.reads_record (.cons rfl rfl ((Reads.list_map fun n hn => ?nodes).map _) <|
    .cons rfl rfl ((Reads.list_map fun s _ => reads_wrapped _ s).map _) <|
    .cons rfl rfl ((Reads.list_map fun s _ => reads_wrapped _ s).map _) <|
    .cons rfl rfl ((Reads.list_map fun d _ => d.reads).map _) .nil) rfl
  exact (h n (Array.mem_toList_iff.mp hn)).reads

-- Where a text or a documentation is, is told by a number of 32 bits. The largest of them, which stands
-- for nothing, is also beyond the last node.
structure Forest.Fits (f : Forest) : Prop where
  size : f.size < nothing
  data : ∀ n ∈ f.nodes, ∀ d ∈ n.data, d < nothing
  doc  : ∀ n ∈ f.nodes, ∀ d ∈ n.doc, d < UInt32.size

theorem Forest.Fits.ref {f : Forest} {r : Ref} (fits : f.Fits) (h : f.Has r) : r.Fits := by
  obtain ⟨i, hi, rfl⟩ := has_iff.mp h
  exact fun j hj => Option.some.inj hj ▸ Nat.lt_trans hi fits.size

theorem Forest.Fits.node {f : Forest} {n : Node} (fits : f.Fits) (l : f.Linked) (h : n ∈ f.nodes) :
    n.Fits where
  data := fits.data n h
  doc  := fits.doc n h
  parent := by
    obtain ⟨i, hn⟩ := Array.mem_iff_getElem?.mp h
    have parent : f.parent (some i) = n.parent := by rw [Forest.parent, node?_some, hn]; rfl
    by_cases hp : n.parent = none
    case pos => exact fun j hj => by simp [hp] at hj
    case neg => exact fits.ref (parent ▸ l.parents (parent ▸ hp))
  children c hc := fits.ref (l.children c (List.mem_flatMap.mpr ⟨n, Array.mem_toList_iff.mpr h, hc⟩))

namespace Document

variable {d : Document}

theorem reads (root : d.root.Fits) (nodes : ∀ n ∈ d.forest.nodes, n.Fits) : reader.Reads d.toJson d :=
  Fills.reads_record (.cons rfl rfl (root.reads.map _) <|
    .cons rfl rfl ((Forest.reads nodes).map _) .nil) rfl

theorem accept_of_check (root : d.forest.Has d.root) (checked : d.forest.check = .ok ()) :
    d.accept = .ok d := by
  have present : (d.forest.node? d.root).isNone = false := by
    rw [Option.isNone_eq_false_iff]
    exact root
  simp [accept, present, checked, bind, Except.bind, pure, Except.pure]

theorem ofText_toText_of_spaced {l : Layout} (spaced : l.Spaced) (fits : d.forest.Fits)
    (root : d.forest.Has d.root) (checked : d.forest.check = .ok ()) : ofText (d.toText l) = .ok d := by
  have linked := (Forest.wellFormed_iff.mpr (Forest.valid_of_check checked)).toLinked
  have reads := reads (fits.ref root) fun n hn => fits.node linked hn
  rw [ofText, toText, reads.read spaced]
  exact accept_of_check root checked

-- A document that the check accepts is written and read without any loss, compact or pretty.
theorem ofText_toText (d : Document) (fits : d.forest.Fits) (root : d.forest.Has d.root)
    (checked : d.forest.check = .ok ()) :
    ofText (d.toText .compact) = .ok d ∧ ofText (d.toText .pretty) = .ok d :=
  ⟨ofText_toText_of_spaced Layout.spaced_compact fits root checked,
    ofText_toText_of_spaced Layout.spaced_pretty fits root checked⟩

-- A text with all sorts of characters, flags without a name, and documentation with and without
-- parameters.
def annotated : Document where
  root := some 0
  forest := {
    nodes := #[
      { kind := .root, children := [some 1] },
      { kind := .script, parent := some 0, children := [some 2], data := some 0, stop := 7 },
      { kind := .expressionStatement, flags := ⟨0x8003⟩, parent := some 1, children := [some 3],
        doc := some 1 },
      { kind := .stringLiteral, parent := some 2, data := some 0, doc := some 0, pos := 1,
        stop := 0xffffffff }]
    texts := #["\"\\/\n\x01\x7f é 😀"]
    files := #["ünı.js"]
    docs := #[
      { isConstructor := true, baseType := some "{!a.B}", params := [⟨"x", some "|"⟩, ⟨"", none⟩] },
      { description := some "" }] }

theorem ofText_toText_annotated : annotated.forest.Fits ∧ annotated.forest.Has annotated.root ∧
    annotated.forest.check = .ok () ∧ ofText (annotated.toText .compact) = .ok annotated ∧
    ofText (annotated.toText .pretty) = .ok annotated := by
  have fits : annotated.forest.Fits := ⟨by decide, by decide, by decide⟩
  have root : annotated.forest.Has annotated.root := rfl
  have checked : annotated.forest.check = .ok () := (Forest.check_eq_checkChains _).trans rfl
  exact ⟨fits, root, checked, ofText_toText annotated fits root checked⟩

end Document

end ClassLift
