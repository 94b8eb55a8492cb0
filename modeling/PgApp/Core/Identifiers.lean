import PgApp.Core.Validation
import PgApp.Grammar.Ranges

/-!
# What the validators accept

Names of namespaces, queues, scopes and config keys are words of one language,
`[A-Za-z_][A-Za-z0-9_-]*`, of limited length.  `validate_config_key` has a limit of its own, 256
bytes, in front of `validate_identifier`, which has 128: the longer keys that the first check lets
pass are refused by the second.

Main result: `identifier_grammars`.
-/

namespace PgApp
open Grammar
open scoped Computability

/-! ## the language -/

def identifierStart : List (Char × Char) := [('A', 'Z'), ('a', 'z'), ('_', '_')]

def identifierRest : List (Char × Char) :=
  [('A', 'Z'), ('a', 'z'), ('0', '9'), ('_', '_'), ('-', '-')]

/-- `[A-Za-z_][A-Za-z0-9_-]*` -/
def identifiers : Language Char := oneOf identifierStart * (oneOf identifierRest)∗

/-- a word of the language with at most so many bytes -/
structure IsIdentifier (maxLen : Nat) (value : String) : Prop where
  word : value.toList ∈ identifiers
  nonempty : 1 ≤ value.utf8ByteSize
  short : value.utf8ByteSize ≤ maxLen

/-- each validator accepts a string exactly if it is an identifier that is short enough -/
structure GrammarsHold (value : String) : Prop where
  namespace_ : validateNamespace value = .ok () ↔ IsIdentifier maxIdentifierLen value
  queueName : validateQueueName value = .ok () ↔ IsIdentifier maxIdentifierLen value
  configComponent : ∀ field,
    validateConfigComponent field value = .ok () ↔ IsIdentifier maxIdentifierLen value
  configKey : validateConfigKey value = .ok () ↔ IsIdentifier maxConfigKeyLen value

/-! ## characters -/

theorem between_self (c d : Char) : d.val ≤ c.val ∧ c.val ≤ d.val ↔ c = d := by
  constructor
  · intro h
    exact Char.le_antisymm h.2 h.1
  · intro h
    subst h
    exact ⟨Char.le_refl c, Char.le_refl c⟩

theorem inRanges_start (c : Char) :
    InRanges identifierStart c ↔ (c.isAlpha || c == '_') = true := by
  unfold identifierStart Char.isAlpha Char.isUpper Char.isLower
  simp only [inRanges_cons, inRanges_nil, or_false, Bool.or_eq_true, Bool.and_eq_true,
    decide_eq_true_eq, beq_iff_eq, Char.le_def, ge_iff_le, or_assoc, between_self]

theorem inRanges_rest (c : Char) :
    InRanges identifierRest c ↔ (c.isAlphanum || c == '_' || c == '-') = true := by
  unfold identifierRest Char.isAlphanum Char.isAlpha Char.isUpper Char.isLower Char.isDigit
  simp only [inRanges_cons, inRanges_nil, or_false, Bool.or_eq_true, Bool.and_eq_true,
    decide_eq_true_eq, beq_iff_eq, Char.le_def, ge_iff_le, or_assoc, between_self]

/-! ## the validators -/

theorem mem_identifiers {w : List Char} : w ∈ identifiers ↔ ∃ first chars, w = first :: chars ∧
    (first.isAlpha || first == '_') = true ∧
    (chars.all fun ch => ch.isAlphanum || ch == '_' || ch == '-') = true := by
  unfold identifiers
  rw [mem_oneOf_mul]
  simp only [inRanges_start, mem_oneOf_kstar, inRanges_rest, List.all_eq_true]

theorem one_le_size {value : String} (h : value.toList ≠ []) : 1 ≤ value.utf8ByteSize := by
  by_contra hsize
  refine h ?_
  have hzero : value.utf8ByteSize = 0 := by omega
  rw [String.utf8ByteSize_eq_zero_iff.mp hzero]
  rfl

theorem isEmpty_of_one_le_size {value : String} (h : 1 ≤ value.utf8ByteSize) :
    value.isEmpty = false := by
  rw [String.isEmpty_eq_false_iff]
  intro hempty
  subst hempty
  exact absurd h (by decide)

/-- what `validate_identifier` accepts -/
theorem validateIdentifier_iff (field value : String) :
    validateIdentifier field value = .ok () ↔ IsIdentifier maxIdentifierLen value := by
  constructor
  · intro h
    unfold validateIdentifier at h
    split at h
    · cases h
    · split at h
      · cases h
      · rename_i hlen
        split at h
        · cases h
        · rename_i first chars hlist
          split at h
          · cases h
          · rename_i hfirst
            split at h
            · cases h
            · rename_i hchars
              rw [Bool.not_eq_true, Bool.not_eq_false'] at hfirst hchars
              refine ⟨mem_identifiers.mpr ⟨first, chars, hlist, hfirst, hchars⟩,
                one_le_size ?_, ?_⟩
              · rw [hlist]
                exact List.cons_ne_nil first chars
              · omega
  · intro h
    obtain ⟨first, chars, hlist, hfirst, hchars⟩ := mem_identifiers.mp h.word
    have hshort := h.short
    unfold validateIdentifier
    rw [isEmpty_of_one_le_size h.nonempty, hlist]
    show (if value.utf8ByteSize > maxIdentifierLen then _
      else if (!(first.isAlpha || first == '_')) = true then _ else _) = _
    rw [if_neg (by omega), hfirst, hchars]
    rfl

/-- `validate_config_key` has two limits, and the smaller one decides. -/
theorem validateConfigKey_iff (key : String) :
    validateConfigKey key = .ok () ↔ IsIdentifier maxIdentifierLen key := by
  unfold validateConfigKey
  split
  · rename_i hlong
    constructor
    · intro h
      cases h
    · intro h
      have hshort := h.short
      unfold maxConfigKeyLen at hlong
      unfold maxIdentifierLen at hshort
      omega
  · exact validateIdentifier_iff "config_key" key

/-- Between the two limits it is `validate_identifier` that refuses, under the field's name. -/
theorem validateConfigKey_between {key : String} (hlong : maxIdentifierLen < key.utf8ByteSize)
    (hshort : key.utf8ByteSize ≤ maxConfigKeyLen) :
    validateConfigKey key = .error (.invalidArgument "config_key exceeds 128 bytes") := by
  unfold validateConfigKey validateIdentifier
  rw [if_neg (by omega), isEmpty_of_one_le_size (by omega)]
  show (if key.utf8ByteSize > maxIdentifierLen then _ else _) = _
  rw [if_pos hlong]
  rfl

/-! ## the grammars -/

/-- **The grammars.**  All four validators accept the identifiers of the length that their constant
allows, except that config keys of more than 128 bytes are refused. -/
theorem identifier_grammars (value : String) :
    GrammarsHold value ↔ ¬ (value.toList ∈ identifiers ∧ maxIdentifierLen < value.utf8ByteSize ∧
      value.utf8ByteSize ≤ maxConfigKeyLen) := by
  constructor
  · intro h hkey
    obtain ⟨hword, hlong, hshort⟩ := hkey
    have hok := h.configKey.mpr ⟨hword, by omega, hshort⟩
    rw [validateConfigKey_between hlong hshort] at hok
    cases hok
  · intro h
    refine ⟨validateIdentifier_iff _ value, validateIdentifier_iff _ value,
      fun field => validateIdentifier_iff field value, ?_⟩
    rw [validateConfigKey_iff]
    constructor
    · intro hid
      have hle : maxIdentifierLen ≤ maxConfigKeyLen := by decide
      exact ⟨hid.word, hid.nonempty, hid.short.trans hle⟩
    · intro hid
      refine ⟨hid.word, hid.nonempty, ?_⟩
      by_contra hlong
      exact h ⟨hid.word, by omega, hid.short⟩

/-- a config key of 129 letters -/
theorem identifier_grammars_long : ¬ GrammarsHold (String.ofList (List.replicate 129 'a')) := by
  intro h
  have hword : (String.ofList (List.replicate 129 'a')).toList ∈ identifiers := by
    rw [String.toList_ofList, mem_identifiers]
    exact ⟨'a', List.replicate 128 'a', rfl, by decide, by decide⟩
  have hsize : (String.ofList (List.replicate 129 'a')).utf8ByteSize = 129 := by
    decide +kernel
  have hok := h.configKey.mpr ⟨hword, by rw [hsize]; decide, by rw [hsize]; decide⟩
  rw [validateConfigKey_between (by rw [hsize]; decide) (by rw [hsize]; decide)] at hok
  cases hok

end PgApp
