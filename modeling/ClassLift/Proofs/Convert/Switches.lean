import ClassLift.Convert.Options
import ClassLift.Proofs.Json.Faults
import ClassLift.Proofs.Json.Form
import Mathlib.Data.List.Induction
import Mathlib.Data.String.Basic

/-!
How options are read. An object gives options if each of its members is one of the switches, none is given
twice, and their values are booleans or words. Otherwise it is the first member that does not do so which
decides about the error.
-/

namespace ClassLift.Options

open Json Reader

-- The words for a switch that is on, and for one that is off.
def words : Bool → List String
  | true => ["true", "1", "yes", "on"]
  | false => ["false", "0", "no", "off"]

def keys : List String :=
  ["mergeStaticMethods", "reportUnknownClasses"]

/- Lower case -/

def letters : List Char :=
  (words true ++ words false).flatMap (·.toList)

-- What a character may become in lower case. Beyond ASCII it may become several characters, and which ones
-- may depend on its place, but one of them is no letter of the words. (The Kelvin sign becomes a `k`.)
structure LowersTo (c : Char) (part : List Char) : Prop where
  ascii : c.toNat < 0x80 → part = [c.toLower]
  other : 0x80 ≤ c.toNat → ∃ d ∈ part, d ∉ letters

def Lowers (lower : List Char → List Char) : Prop :=
  ∀ s, ∃ parts, List.Forall₂ LowersTo s parts ∧ lower s = parts.flatten

/- The members of an object -/

variable (lower : List Char → List Char)

-- What a value says about a switch.
inductive Switches : Tree → Bool → Prop
  | bool (b : Bool) : Switches (.bool b) b
  | word {s : String} {b : Bool} (h : String.ofList (lower (Text.trim s.toList)) ∈ words b) :
    Switches (.text (some s)) b

@[mk_iff]
structure Fits (tms : List (Option String × Tree)) : Prop where
  distinct : (tms.map Prod.fst).Nodup
  known    : ∀ m ∈ tms, m.1 ∈ keys.map some
  switches : ∀ m ∈ tms, ∃ b, Switches lower m.2 b

-- A switch that no member is about is on.
def Tells (tms : List (Option String × Tree)) (key : String) (b : Bool) : Prop :=
  (∃ t, (some key, t) ∈ tms ∧ Switches lower t b) ∨ some key ∉ tms.map Prod.fst ∧ b = true

-- A member for a switch that was not given before, with a text that is no word for it.
structure Mistakes (before : List (Option String × Tree)) (m : Option String × Tree) (s : String) : Prop where
  known : m.1 ∈ keys.map some
  first : m.1 ∉ before.map Prod.fst
  text  : m.2 = .text (some s)
  other : ∀ b, ¬Switches lower m.2 b

variable {lower} {tms tms' before after : List (Option String × Tree)} {m : Option String × Tree} {t : Tree}
  {b b' : Bool} {c : Char} {s w : List Char} {key key' text text' : String} {d : Draft} {options : Options}

/- Words -/

theorem toNat_lt_of_mem_letters (h : c ∈ letters) : c.toNat < 0x80 := by
  have ascii : letters.all (·.toNat < 0x80) := rfl
  exact of_decide_eq_true (List.all_eq_true.mp ascii c h)

theorem mem_letters (hw : key ∈ words b) (hc : c ∈ key.toList) : c ∈ letters :=
  List.mem_flatMap.mpr ⟨key, by cases b <;> simp [hw], hc⟩

theorem toLower_of_not_ascii (h : 0x80 ≤ c.toNat) : c.toLower = c := by
  refine dif_neg fun upper => ?_
  have : c.toNat ≤ 'Z'.toNat := UInt32.le_iff_toNat_le.mp upper.right
  have : 'Z'.toNat = 0x5a := rfl
  omega

theorem lowersTo_toLower (c : Char) : LowersTo c [c.toLower] where
  ascii _ := rfl
  other h := ⟨c.toLower, List.mem_singleton_self _, fun letter => by
    rw [toLower_of_not_ascii h] at letter
    exact absurd (toNat_lt_of_mem_letters letter) (Nat.not_lt.mpr h)⟩

theorem forall₂_lowersTo (s : List Char) : List.Forall₂ LowersTo s (s.map ([·.toLower])) := by
  induction s
  case nil         => exact .nil
  case cons c s ih => exact .cons (lowersTo_toLower c) ih

theorem flatten_toLower (s : List Char) : (s.map ([·.toLower])).flatten = Text.lower s := by
  rw [← List.flatMap_def, ← List.map_eq_flatMap, Text.lower]

theorem lowers_lower : Lowers Text.lower := fun s =>
  ⟨s.map ([·.toLower]), forall₂_lowersTo s, (flatten_toLower s).symm⟩

theorem eq_map_toLower {parts : List (List Char)} (each : List.Forall₂ LowersTo s parts)
    (ascii : ∀ c ∈ s, c.toNat < 0x80) : parts = s.map ([·.toLower]) := by
  induction each
  case nil => rfl
  case cons c part s parts first _ ih =>
    rw [List.forall_mem_cons] at ascii
    rw [List.map_cons, ih ascii.right, first.ascii ascii.left]

theorem lower_ne_of_not_ascii (lowers : Lowers lower) (word : ∀ c ∈ w, c ∈ letters) (hc : c ∈ s)
    (other : 0x80 ≤ c.toNat) : lower s ≠ w := by
  rintro rfl
  obtain ⟨parts, each, e⟩ := lowers s
  obtain ⟨part, mem, lowersTo⟩ := exists_of_forall₂ each hc
  obtain ⟨d, hd, strange⟩ := lowersTo.other other
  exact strange (word d (e ▸ List.mem_flatten_of_mem mem hd))

-- A text is the same word in every lower case.
theorem lower_eq_iff (lowers : Lowers lower) (word : ∀ c ∈ w, c ∈ letters) :
    lower s = w ↔ Text.lower s = w := by
  by_cases ascii : ∀ c ∈ s, c.toNat < 0x80
  case pos =>
    obtain ⟨parts, each, e⟩ := lowers s
    rw [e, eq_map_toLower each ascii, flatten_toLower]
  case neg =>
    obtain ⟨c, hc, other⟩ : ∃ c ∈ s, 0x80 ≤ c.toNat := by simpa using ascii
    have ne := lower_ne_of_not_ascii lowers_lower word hc other
    exact iff_of_false (lower_ne_of_not_ascii lowers word hc other) ne

theorem find?_switchWords :
    (switchWords.find? (·.1.toList == w)).map (·.2) = some b ↔ String.ofList w ∈ words b := by
  constructor
  case mp =>
    intro h
    obtain ⟨⟨word, b'⟩, found, rfl⟩ := Option.map_eq_some_iff.mp h
    obtain rfl : word.toList = w := by simpa using List.find?_some found
    have listed : ∀ p ∈ switchWords, p.1 ∈ words p.2 := by decide
    simpa using listed _ (List.mem_of_find?_eq_some found)
  case mpr =>
    intro h
    have found : ∀ word ∈ words b, (switchWords.find? (·.1.toList == word.toList)).map (·.2) = some b := by
      cases b <;> decide
    simpa using found _ h

theorem switch?_eq_some (lowers : Lowers lower) :
    switch? text = some b ↔ String.ofList (lower (Text.trim text.toList)) ∈ words b := by
  have same (word : String) (h : word ∈ words b) :
      String.ofList (lower (Text.trim text.toList)) = word ↔
        String.ofList (Text.lower (Text.trim text.toList)) = word := by
    rw [String.ofList_eq, String.ofList_eq]
    exact lower_eq_iff lowers fun c hc => mem_letters h hc
  rw [switch?, find?_switchWords]
  constructor
  case mp  => exact fun h => (same _ h).mpr rfl ▸ h
  case mpr => exact fun h => (same _ h).mp rfl ▸ h

/- Values -/

theorem words_disjoint (h : key ∈ words b) (h' : key ∈ words b') : b = b' := by
  have apart : ∀ word ∈ words true, word ∉ words false := by decide
  cases b <;> cases b'
  case false.false => rfl
  case true.true   => rfl
  case false.true  => exact absurd h (apart key h')
  case true.false  => exact absurd h' (apart key h)

theorem Switches.unique (h : Switches lower t b) (h' : Switches lower t b') : b = b' := by
  cases h <;> cases h'
  case bool.bool      => rfl
  case word.word h h' => exact words_disjoint h h'

theorem switches_text (lowers : Lowers lower) :
    Switches lower (.text (some text)) b ↔ switch? text = some b := by
  rw [switch?_eq_some lowers]
  constructor
  case mp =>
    rintro ⟨⟩
    assumption
  case mpr => exact .word

theorem Switches.gives (h : Switches lower t b) (lowers : Lowers lower) : switchReader.Gives t b := by
  intro rest
  cases t
  case bool =>
    cases h
    rfl
  case text value =>
    cases value
    case none => cases h
    case some text =>
      have found := (switches_text lowers).mp h
      simp [switchReader, single, Tree.tokens, found, Except.map]
  all_goals cases h

-- Only a text is refused in words of its own.
theorem exists_faults (lowers : Lowers lower) (h : ∀ b, ¬Switches lower t b) :
    ∃ e, switchReader.Faults t e ∧ ∀ text, e = .refused text ↔ t = .text (some text) := by
  cases t
  case bool b => exact absurd (.bool b) (h b)
  case text value =>
    cases value
    case none => exact ⟨.malformed, fun _ => rfl, by simp⟩
    case some text =>
      have none : switch? text = none :=
        Option.eq_none_iff_forall_not_mem.mpr fun b hb => h b ((switches_text lowers).mpr hb)
      refine ⟨.refused text, fun rest => ?_, by simp⟩
      simp [switchReader, single, Tree.tokens, none, Except.map]
  all_goals exact ⟨.malformed, fun _ => rfl, by simp⟩

/- Members -/

theorem fits_nil : Fits lower [] where
  distinct := .nil
  known    := nofun
  switches := nofun

theorem fits_concat : Fits lower (tms ++ [m]) ↔ Fits lower tms ∧ m.1 ∈ keys.map some ∧
    m.1 ∉ tms.map Prod.fst ∧ ∃ b, Switches lower m.2 b := by
  have distinct : ((tms ++ [m]).map Prod.fst).Nodup ↔ m.1 ∉ tms.map Prod.fst ∧ (tms.map Prod.fst).Nodup := by
    rw [List.map_append, List.map_singleton, ← List.concat_eq_append, List.nodup_concat]
  simp only [fits_iff, distinct, List.forall_mem_append, List.forall_mem_singleton]
  tauto

theorem Fits.perm (h : Fits lower tms) (perm : tms.Perm tms') : Fits lower tms' where
  distinct := (perm.map Prod.fst).nodup_iff.mp h.distinct
  known m hm := h.known m (perm.mem_iff.mpr hm)
  switches m hm := h.switches m (perm.mem_iff.mpr hm)

-- What is wrong with an object is wrong with one of its members and those before it.
theorem exists_split (h : ¬Fits lower tms) :
    ∃ before m after, tms = before ++ m :: after ∧ Fits lower before ∧ ¬Fits lower (before ++ [m]) := by
  induction tms using List.reverseRecOn
  case nil => exact absurd fits_nil h
  case append_singleton tms m ih =>
    by_cases fits : Fits lower tms
    case pos => exact ⟨tms, m, [], rfl, fits, h⟩
    case neg =>
      obtain ⟨before, m', after, rfl, fits, wrong⟩ := ih fits
      exact ⟨before, m', after ++ [m], by simp, fits, wrong⟩

/- Drafts -/

def Draft.at (d : Draft) (key : String) : Option Bool :=
  if key = "mergeStaticMethods" then d.mergeStaticMethods else d.reportUnknownClasses

def Draft.put (d : Draft) (key : String) (b : Bool) : Draft :=
  if key = "mergeStaticMethods" then { d with mergeStaticMethods := some b }
  else { d with reportUnknownClasses := some b }

theorem Draft.at_put (hk : key ∈ keys) (hk' : key' ∈ keys) :
    (d.put key' b).at key = if key = key' then some b else d.at key := by
  simp only [keys, List.mem_cons, List.not_mem_nil, or_false] at hk hk'
  obtain rfl | rfl := hk <;> obtain rfl | rfl := hk' <;> simp [Draft.at, put]

theorem find?_jsonMembers (hk : key ∈ keys) :
    jsonMembers.find? (·.key == key) = some (.of key (·.at key) (fun b d => d.put key b) switchReader) := by
  simp only [keys, List.mem_cons, List.not_mem_nil, or_false] at hk
  obtain rfl | rfl := hk
  case inl => simp [jsonMembers, Member.of, Draft.at, Draft.put]
  case inr => simp [jsonMembers, Member.of, Draft.at, Draft.put]

theorem find?_jsonMembers_eq_none (hk : key ∉ keys) : jsonMembers.find? (·.key == key) = none := by
  have listed : jsonMembers.map (·.key) = keys := rfl
  refine List.find?_eq_none.mpr fun m hm e => hk ?_
  exact listed ▸ beq_iff_eq.mp e ▸ List.mem_map_of_mem hm

-- A draft that is filled by these members.
structure Filled (lower : List Char → List Char) (tms : List (Option String × Tree)) (d : Draft) : Prop where
  fits   : Fits lower tms
  at_iff : ∀ {key}, key ∈ keys → ∀ {b},
    d.at key = some b ↔ ∃ t, (some key, t) ∈ tms ∧ Switches lower t b

theorem filled_nil : Filled lower [] {} where
  fits := fits_nil
  at_iff _ _ := by simp [Draft.at]

namespace Filled

theorem at_eq_none (filled : Filled lower tms d) (hk : key ∈ keys) :
    d.at key = none ↔ some key ∉ tms.map Prod.fst := by
  constructor
  case mp =>
    intro none mem
    obtain ⟨⟨_, t⟩, mem, rfl⟩ := List.mem_map.mp mem
    obtain ⟨b, hb⟩ := filled.fits.switches _ mem
    cases none.symm.trans ((filled.at_iff hk).mpr ⟨t, mem, hb⟩)
  case mpr =>
    intro absent
    refine Option.eq_none_iff_forall_ne_some.mpr fun b hb => ?_
    obtain ⟨t, mem, -⟩ := (filled.at_iff hk).mp hb
    exact absent (List.mem_map_of_mem mem)

theorem tells (filled : Filled lower tms d) (hk : key ∈ keys) : Tells lower tms key ((d.at key).getD true) := by
  cases h : d.at key
  case none   => exact .inr ⟨(filled.at_eq_none hk).mp h, rfl⟩
  case some b => exact .inl ((filled.at_iff hk).mp h)

-- A member that fits is put in its place.
theorem exists_enters (filled : Filled lower tms d) (lowers : Lowers lower) (fits : Fits lower (tms ++ [m])) :
    ∃ d', Enters jsonMembers .refused d m d' ∧ Filled lower (tms ++ [m]) d' := by
  obtain ⟨-, known, first, b, hb⟩ := fits_concat.mp fits
  obtain ⟨_, t⟩ := m
  obtain ⟨key, hk, rfl⟩ := List.mem_map.mp known
  have unread := (filled.at_eq_none hk).mpr first
  have enters : Enters jsonMembers .refused d (some key, t) (d.put key b) :=
    enters_of (find?_jsonMembers hk) unread (hb.gives lowers)
  refine ⟨d.put key b, enters, fits, fun {key'} hk' b' => ?_⟩
  rw [Draft.at_put hk' hk]
  split
  case isTrue e =>
    subst e
    have new (t') : (some key', t') ∉ tms := fun h => first (List.mem_map.mpr ⟨_, h, rfl⟩)
    have same : b = b' ↔ Switches lower t b' := ⟨fun e => e ▸ hb, hb.unique⟩
    simp [new, same]
  case isFalse e => simpa [e] using filled.at_iff hk'

-- The only fault with words of its own is a text that is no word for a switch.
theorem exists_bars (filled : Filled lower tms d) (lowers : Lowers lower) (wrong : ¬Fits lower (tms ++ [m])) :
    ∃ e, Bars jsonMembers .refused d m e ∧ ∀ text, e = .refused text ↔ Mistakes lower tms m text := by
  obtain ⟨key, t⟩ := m
  cases key
  case none => exact ⟨.malformed, fun _ => rfl, fun _ => iff_of_false nofun fun h => by simpa using h.known⟩
  case some key =>
    by_cases hk : key ∈ keys
    case neg =>
      have unknown (text) (h : Mistakes lower tms (some key, t) text) : False := hk (by simpa using h.known)
      exact ⟨_, bars_of_unnamed (find?_jsonMembers_eq_none hk), fun _ => iff_of_false nofun (unknown _)⟩
    case pos =>
      by_cases first : some key ∈ tms.map Prod.fst
      case pos =>
        have read : d.at key ≠ none := fun none => (filled.at_eq_none hk).mp none first
        exact ⟨_, bars_of_read (find?_jsonMembers hk) read, fun _ => iff_of_false nofun fun h => h.first first⟩
      case neg =>
        have unread := (filled.at_eq_none hk).mpr first
        have known : some key ∈ keys.map some := List.mem_map_of_mem hk
        have other (b) (hb : Switches lower t b) : False :=
          wrong (fits_concat.mpr ⟨filled.fits, known, first, b, hb⟩)
        obtain ⟨e, faults, refused⟩ := exists_faults lowers other
        refine ⟨e, bars_of_faults (find?_jsonMembers hk) unread faults, fun text => (refused text).trans ?_⟩
        exact ⟨fun h => ⟨known, first, h, other⟩, fun h => h.text⟩

end Filled

theorem exists_collects (lowers : Lowers lower) (fits : Fits lower tms) :
    ∃ d, Collects jsonMembers .refused {} tms d ∧ Filled lower tms d := by
  induction tms using List.reverseRecOn
  case nil => exact ⟨{}, .nil, filled_nil⟩
  case append_singleton tms m ih =>
    obtain ⟨d, collects, filled⟩ := ih (fits_concat.mp fits).left
    obtain ⟨d', enters, filled⟩ := filled.exists_enters lowers fits
    exact ⟨d', collects.concat enters, filled⟩

/- Objects -/

theorem ofText_of_gives (writes : Spaced t.Writes text.toList) (h : reader.Gives t options) :
    ofText text = .ok options := by
  have run := h []
  rw [List.append_nil] at run
  simp [ofText, Reader.read, Tree.scan_of_writes writes, run]

theorem ofText_of_faults {e : Fault} (writes : Spaced t.Writes text.toList) (h : reader.Faults t e) :
    ∃ e', ofText text = .error e' ∧ ∀ s, e' = .invalidSwitch s ↔ e = .refused s := by
  have run := h []
  rw [List.append_nil] at run
  have read : reader.read text = .error e := by simp [Reader.read, Tree.scan_of_writes writes, run]
  cases e
  case malformed => exact ⟨.malformed, by simp [ofText, read], by simp⟩
  case refused s => exact ⟨.invalidSwitch s, by simp [ofText, read], by simp⟩

theorem ofText_of_fits (lowers : Lowers lower) (writes : Spaced (Tree.object tms).Writes text.toList)
    (fits : Fits lower tms) : ∃ options, ofText text = .ok options ∧
      Tells lower tms "mergeStaticMethods" options.mergeStaticMethods ∧
      Tells lower tms "reportUnknownClasses" options.reportUnknownClasses := by
  obtain ⟨d, collects, filled⟩ := exists_collects lowers fits
  refine ⟨_, ofText_of_gives writes (collects.gives_record rfl), ?_, ?_⟩
  · have known : "mergeStaticMethods" ∈ keys := by simp [keys]
    exact filled.tells known
  · have known : "reportUnknownClasses" ∈ keys := by simp [keys]
    exact filled.tells known

theorem ofText_of_wrong (lowers : Lowers lower)
    (writes : Spaced (Tree.object (before ++ m :: after)).Writes text.toList) (fits : Fits lower before)
    (wrong : ¬Fits lower (before ++ [m])) :
    ∃ e, ofText text = .error e ∧ ∀ s, e = .invalidSwitch s ↔ Mistakes lower before m s := by
  obtain ⟨d, collects, filled⟩ := exists_collects lowers fits
  obtain ⟨e, bars, refused⟩ := filled.exists_bars lowers wrong
  obtain ⟨e', error, invalid⟩ := ofText_of_faults writes (collects.faults_record bars)
  exact ⟨e', error, fun s => (invalid s).trans (refused s)⟩

theorem Tells.unique (h : Tells lower tms key b) (fits : Fits lower tms) (h' : Tells lower tms key b') :
    b = b' := by
  obtain ⟨t, mem, hb⟩ | ⟨absent, rfl⟩ := h <;> obtain ⟨t', mem', hb'⟩ | ⟨absent', rfl⟩ := h'
  case inl.inl =>
    obtain ⟨⟩ := List.inj_on_of_nodup_map fits.distinct mem mem' rfl
    exact hb.unique hb'
  case inl.inr => exact absurd (List.mem_map.mpr ⟨_, mem, rfl⟩) absent'
  case inr.inl => exact absurd (List.mem_map.mpr ⟨_, mem', rfl⟩) absent
  case inr.inr => rfl

theorem Tells.perm (h : Tells lower tms key b) (perm : tms.Perm tms') : Tells lower tms' key b := by
  obtain ⟨t, mem, hb⟩ | ⟨absent, rfl⟩ := h
  case inl => exact .inl ⟨t, perm.mem_iff.mp mem, hb⟩
  case inr => exact .inr ⟨fun mem => absent ((perm.map Prod.fst).mem_iff.mpr mem), rfl⟩

theorem ofText_perm (lowers : Lowers lower) (writes : Spaced (Tree.object tms).Writes text.toList)
    (fits : Fits lower tms) (perm : tms.Perm tms') (writes' : Spaced (Tree.object tms').Writes text'.toList) :
    ofText text' = ofText text := by
  obtain ⟨options, ok, merge, report⟩ := ofText_of_fits lowers writes fits
  obtain ⟨options', ok', merge', report'⟩ := ofText_of_fits lowers writes' (fits.perm perm)
  have merge := (merge.perm perm).unique (fits.perm perm) merge'
  have report := (report.perm perm).unique (fits.perm perm) report'
  have same : options = options' := by
    cases options
    cases options'
    congr
  rw [ok, ok', same]

theorem exists_ok_iff (lowers : Lowers lower) (writes : Spaced (Tree.object tms).Writes text.toList) :
    (∃ options, ofText text = .ok options) ↔ Fits lower tms := by
  constructor
  case mp =>
    rintro ⟨options, ok⟩
    by_contra wrong
    obtain ⟨before, m, after, rfl, fits, wrong⟩ := exists_split wrong
    obtain ⟨e, error, -⟩ := ofText_of_wrong lowers writes fits wrong
    cases ok.symm.trans error
  case mpr =>
    intro fits
    obtain ⟨options, ok, -⟩ := ofText_of_fits lowers writes fits
    exact ⟨options, ok⟩

theorem Mistakes.not_fits {s : String} (h : Mistakes lower before m s) : ¬Fits lower (before ++ [m]) := by
  intro fits
  obtain ⟨b, hb⟩ := (fits_concat.mp fits).right.right.right
  exact h.other b hb

theorem invalidSwitch_iff {s : String} (lowers : Lowers lower)
    (writes : Spaced (Tree.object tms).Writes text.toList) : ofText text = .error (.invalidSwitch s) ↔
      ∃ before m after, tms = before ++ m :: after ∧ Fits lower before ∧ Mistakes lower before m s := by
  constructor
  case mp =>
    intro invalid
    have wrong : ¬Fits lower tms := by
      intro fits
      obtain ⟨options, ok, -⟩ := ofText_of_fits lowers writes fits
      cases ok.symm.trans invalid
    obtain ⟨before, m, after, rfl, fits, wrong⟩ := exists_split wrong
    obtain ⟨e, error, refused⟩ := ofText_of_wrong lowers writes fits wrong
    have same : e = .invalidSwitch s := Except.error.inj (error.symm.trans invalid)
    exact ⟨before, m, after, rfl, fits, (refused s).mp same⟩
  case mpr =>
    rintro ⟨before, m, after, rfl, fits, mistakes⟩
    obtain ⟨e, error, refused⟩ := ofText_of_wrong lowers writes fits mistakes.not_fits
    rw [error, (refused s).mpr mistakes]

-- What comes of the text of an object is told by its members, however they are written. The first of them
-- that is wrong decides about the error, and its text is quoted, but not if it gives a switch again.
theorem ofText_object (lowers : Lowers lower) (writes : Spaced (Tree.object tms).Writes text.toList) :
    ((∃ options, ofText text = .ok options) ↔ Fits lower tms) ∧
    (∀ options, ofText text = .ok options →
      Tells lower tms "mergeStaticMethods" options.mergeStaticMethods ∧
      Tells lower tms "reportUnknownClasses" options.reportUnknownClasses ∧
      ∀ tms' text', tms.Perm tms' → Spaced (Tree.object tms').Writes text'.toList →
        ofText text' = .ok options) ∧
    ∀ s, (ofText text = .error (.invalidSwitch s) ↔
        ∃ before m after, tms = before ++ m :: after ∧ Fits lower before ∧ Mistakes lower before m s) ∧
      (OptionsError.invalidSwitch s).message? =
        some ("invalid boolean value: '" ++ s ++ "'. Expected true, false, 'true', or 'false'") := by
  refine ⟨exists_ok_iff lowers writes, ?_, fun s => ⟨invalidSwitch_iff lowers writes, rfl⟩⟩
  intro options ok
  have fits := (exists_ok_iff lowers writes).mp ⟨options, ok⟩
  obtain ⟨options', ok', merge, report⟩ := ofText_of_fits lowers writes fits
  obtain rfl : options' = options := Except.ok.inj (ok'.symm.trans ok)
  exact ⟨merge, report, fun tms' text' perm writes' => (ofText_perm lowers writes fits perm writes').trans ok⟩

-- A word with capitals and blanks, and a text that is no word.
def shouted : Value :=
  .object [("reportUnknownClasses", .text " OFF ")]

def doubtful : Value :=
  .object [("reportUnknownClasses", .bool false), ("mergeStaticMethods", .text "maybe")]

theorem writes_render {l : Layout} (spaced : l.Spaced) (v : Value) :
    Spaced v.asTree.Writes (v.render l).toList := by
  rw [Value.render, String.toList_ofList]
  exact Value.spaced_write spaced v

theorem fits_singleton (hk : key ∈ keys) (h : Switches lower t b) : Fits lower [(some key, t)] :=
  fits_concat.mpr ⟨fits_nil, List.mem_map_of_mem hk, List.not_mem_nil, b, h⟩

theorem not_switches_maybe (b : Bool) : ¬Switches Text.lower (.text (some "maybe")) b := by
  rw [switches_text lowers_lower]
  cases b <;> decide

theorem ofText_object_shouted :
    Lowers Text.lower ∧
    (∃ options, ofText (shouted.render .pretty) = .ok options) ∧
    ofText (doubtful.render .compact) = .error (.invalidSwitch "maybe") := by
  have writes : Spaced (Tree.object [(some "reportUnknownClasses", .text (some " OFF "))]).Writes
      (shouted.render .pretty).toList := writes_render Layout.spaced_pretty shouted
  have writes' : Spaced (Tree.object [(some "reportUnknownClasses", .bool false),
      (some "mergeStaticMethods", .text (some "maybe"))]).Writes (doubtful.render .compact).toList :=
    writes_render Layout.spaced_compact doubtful
  have off : Switches Text.lower (.text (some " OFF ")) false :=
    (switches_text lowers_lower).mpr rfl
  refine ⟨lowers_lower, ?_, ?_⟩
  · exact (ofText_object lowers_lower writes).left.mpr (fits_singleton (by simp [keys]) off)
  · have known : some "mergeStaticMethods" ∈ keys.map some := by simp [keys]
    have fits : Fits Text.lower [(some "reportUnknownClasses", .bool false)] :=
      fits_singleton (by simp [keys]) (.bool false)
    exact ((ofText_object lowers_lower writes').right.right "maybe").left.mpr
      ⟨[_], _, [], rfl, fits, known, by simp, rfl, not_switches_maybe⟩

-- A switch that is given again with a text that is no word for it.
def repeated : Value :=
  .object [("mergeStaticMethods", .bool true), ("mergeStaticMethods", .text "maybe")]

theorem ofText_repeated :
    repeated.render .compact = "\x7b\"mergeStaticMethods\":true,\"mergeStaticMethods\":\"maybe\"\x7d" ∧
    Spaced (Tree.object ([(some "mergeStaticMethods", .bool true)] ++
      [(some "mergeStaticMethods", .text (some "maybe"))])).Writes (repeated.render .compact).toList ∧
    Fits Text.lower [(some "mergeStaticMethods", .bool true)] ∧
    "mergeStaticMethods" ∈ keys ∧
    (∀ b, ¬Switches Text.lower (.text (some "maybe")) b) ∧
    ofText (repeated.render .compact) ≠ .error (.invalidSwitch "maybe") ∧
    ofText (repeated.render .compact) = .error .malformed :=
  ⟨rfl, writes_render Layout.spaced_compact repeated, fits_singleton (by simp [keys]) (.bool true),
    by simp [keys], not_switches_maybe, by decide +kernel, by decide +kernel⟩

end ClassLift.Options
