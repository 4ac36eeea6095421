import Mathlib.Tactic
import ParenGap.Config
import ParenGap.Proofs.Json.Completeness

/-!
# Configurations by their shape

Which values a configuration may be written as is said without the three shapes that are tried
(`Shape`): an object with the policy or without, an array with the policy or without. The first
shape that is tried has them all, since a record may be written as an array of its options; the
other two add nothing (`ofJson?_eq_ofRecord?`).

A text of a value is a configuration exactly if the value has a shape, and then it holds the policy
that is named (`read_textOf`). A text of no value is none (`exists_shape_of_read`).
-/

set_option autoImplicit false

namespace ParenGap

theorem Policy.ofName?_eq_some_iff {name : String} {policy : Policy} :
    ofName? name = some policy ↔ name = policy.name := by
  constructor
  · intro h
    unfold ofName? at h
    split at h
    · rename_i hname
      cases h
      exact beq_iff_eq.1 hname
    · split at h
      · rename_i hname
        cases h
        exact beq_iff_eq.1 hname
      · cases h
  · rintro rfl
    exact ofName?_name policy

namespace Config

open Json (Legible Spaces SpellsChar SpellsChars Spells spaces_nil spellsChars_self)

/-- How a policy is named: by a string, or by the only key of an object, whose value is `null`. -/
inductive Names : Json → Policy → Prop
  | string (policy : Policy) : Names (.string policy.name) policy
  | object (policy : Policy) : Names (.object [(policy.name, .null)]) policy

/-- Which values are configurations, and the policy that they hold. -/
inductive Shape : Json → Policy → Prop
  | emptyObject : Shape (.object []) .never
  | object {v : Json} {policy : Policy} (h : Names v policy) :
      Shape (.object [("policy", v)]) policy
  | emptyArray : Shape (.array []) .never
  | array {v : Json} {policy : Policy} (h : Names v policy) : Shape (.array [v]) policy

section Values

variable {v : Json} {policy : Policy} {config : Config} {members : List (String × Json)}
  {items : List Json}

theorem policyOf?_eq_some_iff : policyOf? v = some policy ↔ Names v policy := by
  constructor
  · intro h
    unfold policyOf? at h
    split at h
    · obtain rfl := Policy.ofName?_eq_some_iff.1 h
      exact .string policy
    · obtain rfl := Policy.ofName?_eq_some_iff.1 h
      exact .object policy
    · cases h
  · rintro (_ | _) <;> exact Policy.ofName?_name policy

/-- Once the policy is given, nothing else may be given. -/
theorem ofMembers?_given :
    ofMembers? (some policy) members = some config ↔ members = [] ∧ config = ⟨policy⟩ := by
  cases members with
  | nil => simp [ofMembers?, eq_comm]
  | cons m members => simp [ofMembers?]

theorem ofMembers?_eq_some_iff :
    ofMembers? none members = some config ↔ Shape (.object members) config.policy := by
  constructor
  · intro h
    cases members with
    | nil =>
        cases h
        exact .emptyObject
    | cons m members =>
        obtain ⟨key, v⟩ := m
        rw [ofMembers?] at h
        split at h
        · rename_i hkey
          obtain rfl := beq_iff_eq.1 hkey
          rw [if_neg (by simp), Option.bind_eq_some_iff] at h
          obtain ⟨policy, hpolicy, hrest⟩ := h
          obtain ⟨rfl, rfl⟩ := ofMembers?_given.1 hrest
          exact .object (policyOf?_eq_some_iff.1 hpolicy)
        · cases h
  · obtain ⟨policy⟩ := config
    intro h
    cases h with
    | emptyObject => rfl
    | object h =>
        rw [ofMembers?, if_pos (beq_self_eq_true _), if_neg (by simp),
          policyOf?_eq_some_iff.2 h]
        rfl

theorem ofItems?_eq_some_iff :
    ofItems? items = some config ↔ Shape (.array items) config.policy := by
  constructor
  · intro h
    unfold ofItems? at h
    split at h
    · cases h
      exact .emptyArray
    · obtain ⟨policy, hpolicy, rfl⟩ := Option.map_eq_some_iff.1 h
      exact .array (policyOf?_eq_some_iff.1 hpolicy)
    · cases h
  · obtain ⟨policy⟩ := config
    intro h
    cases h with
    | emptyArray => rfl
    | array h => rw [ofItems?, policyOf?_eq_some_iff.2 h, Option.map_some]

/-- A record has all the shapes of a configuration. -/
theorem ofRecord?_eq_some_iff : ofRecord? v = some config ↔ Shape v config.policy := by
  cases v with
  | object members => exact ofMembers?_eq_some_iff
  | array items => exact ofItems?_eq_some_iff
  | _ => exact ⟨nofun, nofun⟩

/-- An array of one policy is a record as well. -/
theorem ofRecord?_of_ofOnePolicy? (h : ofOnePolicy? v = some config) :
    ofRecord? v = some config := by
  obtain ⟨policies, hpolicies, hhead⟩ := Option.bind_eq_some_iff.1 h
  unfold policiesOf? at hpolicies
  split at hpolicies
  · split at hpolicies
    · rename_i items hlength
      obtain ⟨v, rfl⟩ := List.length_eq_one_iff.1 (beq_iff_eq.1 hlength)
      simp only [List.mapM_cons, List.mapM_nil, Option.bind_eq_bind, Option.pure_def,
        Option.bind_some, Option.bind_eq_some_iff, Option.some.injEq] at hpolicies
      obtain ⟨policy, hpolicy, rfl⟩ := hpolicies
      rw [ofRecord?, ofItems?, hpolicy, ← hhead]
      rfl
    · cases hpolicies
  · cases hpolicies

/-- An array of no policy is a record as well. -/
theorem ofRecord?_of_ofNoPolicy? (h : ofNoPolicy? v = some config) :
    ofRecord? v = some config := by
  obtain ⟨policies, hpolicies, rfl⟩ := Option.map_eq_some_iff.1 h
  unfold policiesOf? at hpolicies
  split at hpolicies
  · split at hpolicies
    · rename_i items hlength
      obtain rfl := List.length_eq_zero_iff.1 (beq_iff_eq.1 hlength)
      rfl
    · cases hpolicies
  · cases hpolicies

/-- The shapes that are tried after the first one add nothing to it. -/
theorem ofJson?_eq_ofRecord? (v : Json) : ofJson? v = ofRecord? v := by
  cases hrecord : ofRecord? v with
  | some config => simp [ofJson?, shapes, hrecord]
  | none =>
      -- where no record is, no later shape is either
      have hone : ofOnePolicy? v = none := by
        rw [Option.eq_none_iff_forall_not_mem]
        intro config h
        rw [ofRecord?_of_ofOnePolicy? h] at hrecord
        cases hrecord
      have hno : ofNoPolicy? v = none := by
        rw [Option.eq_none_iff_forall_not_mem]
        intro config h
        rw [ofRecord?_of_ofNoPolicy? h] at hrecord
        cases hrecord
      simp [ofJson?, shapes, hrecord, hone, hno]

theorem ofJson?_eq_some_iff : ofJson? v = some config ↔ Shape v config.policy := by
  rw [ofJson?_eq_ofRecord?, ofRecord?_eq_some_iff]

/-- A policy is legible however it is named. -/
theorem Names.legible (h : Names v policy) (depth : Nat) : Legible (depth + 1) v := by
  cases h with
  | string => exact .string policy.name
  | object => exact .object (List.forall_mem_singleton.2 .null)

/-- No configuration is too much for the reader. -/
theorem Shape.legible (h : Shape v policy) (depth : Nat) : Legible (depth + 2) v := by
  cases h with
  | emptyObject => exact .object (List.forall_mem_nil _)
  | object h => exact .object (List.forall_mem_singleton.2 (h.legible depth))
  | emptyArray => exact .array (List.forall_mem_nil _)
  | array h => exact .array (List.forall_mem_singleton.2 (h.legible depth))

end Values

/-! ## Texts -/

section Texts

variable {v : Json} {config : Config} {text : List Char}

/-- Every text that is a configuration holds a value that has a shape. -/
theorem exists_shape_of_read (h : read text = .ok config) :
    ∃ v : Json, v.TextOf text ∧ Shape v config.policy := by
  unfold read at h
  split at h
  · cases h
  · rename_i v rest hfirst
    split at h
    · cases h
    · rename_i config' hjson
      split at h
      · cases h
      · rename_i hend
        cases h
        exact ⟨v, Json.textOf_of_readFirst hfirst hend, ofJson?_eq_some_iff.1 hjson⟩

/-- A text of a value that has a shape is a configuration. -/
theorem read_of_shape (htext : v.TextOf text) (hshape : Shape v config.policy) :
    read text = .ok config := by
  rcases Json.readFirst_of_textOf htext with ⟨rest, hfirst, hend⟩ | ⟨hnot, -⟩
  · simp only [read, hfirst, ofJson?_eq_some_iff.2 hshape, hend]
  · exact absurd (hshape.legible _) hnot

/-- A text of a value that has no shape is refused for that, or it is refused as JSON already. -/
theorem read_of_not_shape (htext : v.TextOf text) (hshape : ∀ policy, ¬ Shape v policy) :
    read text = .error .shape ∨
      ∃ e, Json.read text = .error e ∧ read text = .error (.malformed e) := by
  rcases Json.readFirst_of_textOf htext with ⟨rest, hfirst, -⟩ | ⟨-, e, hfirst⟩
  · have hjson : ofJson? v = none := by
      rw [Option.eq_none_iff_forall_not_mem]
      intro config h
      exact hshape config.policy (ofJson?_eq_some_iff.1 h)
    left
    simp only [read, hfirst, hjson]
  · refine .inr ⟨e, ?_, ?_⟩
    · rw [Json.read, hfirst]
      rfl
    · simp only [read, hfirst]

/-- A text of a value that has a shape is a configuration of no other policy. -/
theorem shape_of_read (htext : v.TextOf text) (h : read text = .ok config) :
    Shape v config.policy := by
  unfold read at h
  rcases Json.readFirst_of_textOf htext with ⟨rest, hfirst, hend⟩ | ⟨-, e, hfirst⟩
  · simp only [hfirst, hend] at h
    split at h
    · cases h
    · rename_i config' hjson
      cases h
      exact ofJson?_eq_some_iff.1 hjson
  · simp only [hfirst] at h
    cases h

/-- A text of a value is a configuration exactly if the value has a shape, and it holds the policy
that the shape says. A text of any other value is refused, for its shape or as JSON already. A
policy is accepted as the member of an object exactly if it is accepted as the item of an array,
with the same result. -/
theorem read_textOf (htext : v.TextOf text) :
    (∀ config, read text = .ok config ↔ Shape v config.policy) ∧
      ((∀ policy, ¬ Shape v policy) →
        read text = .error .shape ∨
          ∃ e, Json.read text = .error e ∧ read text = .error (.malformed e)) ∧
      ∀ w, v = .object [("policy", w)] → ∀ text', (Json.array [w]).TextOf text' →
        ∀ config, read text = .ok config ↔ read text' = .ok config := by
  refine ⟨fun config => ⟨shape_of_read htext, read_of_shape htext⟩, read_of_not_shape htext, ?_⟩
  rintro w rfl text' htext' config
  constructor
  · intro h
    cases shape_of_read htext h with
    | object hw => exact read_of_shape htext' (.array hw)
  · intro h
    cases shape_of_read htext' h with
    | array hw => exact read_of_shape htext (.object hw)

/-- An object that names the policy `always` by an object, one letter of it by its code. -/
def alwaysText : List Char :=
  ['\x7b', ' ', '"', 'p', 'o', 'l', 'i', 'c', 'y', '"', ':', '\x7b', '"', '\\', 'u', '0', '0', '6',
    '1', 'l', 'w', 'a', 'y', 's', '"', ':', 'n', 'u', 'l', 'l', '\x7d', '\x7d', '\n']

theorem textOf_alwaysText :
    (Json.object [("policy", .object [("always", .null)])]).TextOf alwaysText := by
  have hpolicy : SpellsChars ['p', 'o', 'l', 'i', 'c', 'y'] ['p', 'o', 'l', 'i', 'c', 'y'] :=
    spellsChars_self (by simp)
  have ha : SpellsChar 'a' ['\\', 'u', '0', '0', '6', '1'] := .code rfl rfl rfl
  have hlways : SpellsChars ['l', 'w', 'a', 'y', 's'] ['l', 'w', 'a', 'y', 's'] :=
    spellsChars_self (by simp)
  have hspace : Spaces [' '] := List.forall_mem_singleton.2 rfl
  have hnewline : Spaces ['\n'] := List.forall_mem_singleton.2 rfl
  have hname := Spells.object (.firstMember spaces_nil (.entry (.cons ha hlways) spaces_nil
    spaces_nil .wordNull (.membersEnd spaces_nil)))
  have hvalue := Spells.object (.firstMember hspace (.entry hpolicy spaces_nil spaces_nil hname
    (.membersEnd spaces_nil)))
  exact ⟨[], _, ['\n'], rfl, spaces_nil, hnewline, hvalue⟩

/-- An array that names two policies. -/
def bothText : List Char :=
  ['[', '"', 'a', 'l', 'w', 'a', 'y', 's', '"', ',', '"', 'n', 'e', 'v', 'e', 'r', '"', ']']

theorem textOf_bothText : (Json.array [.string "always", .string "never"]).TextOf bothText := by
  have halways : SpellsChars ['a', 'l', 'w', 'a', 'y', 's'] ['a', 'l', 'w', 'a', 'y', 's'] :=
    spellsChars_self (by simp)
  have hnever : SpellsChars ['n', 'e', 'v', 'e', 'r'] ['n', 'e', 'v', 'e', 'r'] :=
    spellsChars_self (by simp)
  have hvalue := Spells.array (.firstItem spaces_nil (.string halways) (.nextItem spaces_nil
    spaces_nil (.string hnever) (.itemsEnd spaces_nil)))
  exact ⟨[], _, [], rfl, spaces_nil, spaces_nil, hvalue⟩

theorem read_textOf_alwaysText :
    read alwaysText = .ok ⟨.always⟩ ∧
      (∀ text', (Json.array [.object [("always", .null)]]).TextOf text' →
        read text' = .ok ⟨.always⟩) ∧
      (read bothText = .error .shape ∨
        ∃ e, Json.read bothText = .error e ∧ read bothText = .error (.malformed e)) := by
  obtain ⟨haccept, -, hforms⟩ := read_textOf textOf_alwaysText
  obtain ⟨-, hrefuse, -⟩ := read_textOf textOf_bothText
  have hread := (haccept ⟨.always⟩).2 (.object (.object .always))
  have hnot : ∀ policy, ¬ Shape (.array [.string "always", .string "never"]) policy := by
    intro policy h
    cases h
  exact ⟨hread, fun text' htext' => (hforms _ rfl text' htext' _).1 hread, hrefuse hnot⟩

end Texts

end Config

end ParenGap
