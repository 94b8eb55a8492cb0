import PgApp.Interleave.Prog

/-!
# Errors, JSON values and time

The types every store shares (`error.rs`, and what the stores take from `serde_json`, `chrono`
and PostgreSQL):

* `PgAppError`   the error type of the crate, `PgAppResult α` its result type;
* `SqlError`     the database errors the statements of the stores can meet, and
                 `PgAppError.ofSqlx`, the conversion behind every `?` on a query;
* `Status`       what a gRPC call that fails ends with, and `Status.ofError`;
* `Json`         a `serde_json::Value` / JSONB value;
* `storable`     the texts that PostgreSQL takes as a TEXT, `Json.storable` those it takes as a
JSONB;
* `Time`         a TIMESTAMPTZ, in microseconds; `seconds n` is `n * interval '1 second'`.

A `Time` has no last value; where the calendars end is said in `PgApp.Core.Calendar`.
-/

namespace PgApp

inductive PgAppError where
  | invalidArgument (msg : String)
  | notFound (msg : String)
  | conflict (msg : String)
  | timeout (msg : String)
  | databaseUnavailable (msg : String)
  | database (msg : String)
  | serviceUnavailable (msg : String)
deriving DecidableEq

abbrev PgAppResult (α : Type) := Except PgAppError α

/-- database errors a statement of the stores can end with -/
inductive SqlError where
  | rowNotFound
  | uniqueViolation (constraint : String)
  | foreignKeyViolation (table constraint : String)
  | integerOutOfRange
  | channelNameTooLong
  | negativeLimit
  | invalidText
  | unsupportedUnicode
  | outOfRange (type : String)
deriving DecidableEq

def SqlError.text : SqlError → String
  | .rowNotFound => "no rows returned by a query that expected to return at least one row"
  | .uniqueViolation c =>
      "error returned from database: duplicate key value violates unique constraint \"" ++ c ++ "\""
  | .foreignKeyViolation t c =>
      "error returned from database: insert or update on table \"" ++ t ++
        "\" violates foreign key constraint \"" ++ c ++ "\""
  | .integerOutOfRange => "error returned from database: integer out of range"
  | .channelNameTooLong => "error returned from database: channel name too long"
  | .negativeLimit => "error returned from database: LIMIT must not be negative"
  | .invalidText =>
      "error returned from database: invalid byte sequence for encoding \"UTF8\": 0x00"
  | .unsupportedUnicode => "error returned from database: unsupported Unicode escape sequence"
  | .outOfRange t => "error returned from database: " ++ t ++ " out of range"

/-- `impl From<sqlx::Error> for PgAppError` -/
def PgAppError.ofSqlx : SqlError → PgAppError
  | .rowNotFound => .notFound "row not found"
  | other => .database other.text

/-- the gRPC codes of the server -/
inductive Code where
  | invalidArgument
  | notFound
  | alreadyExists
  | deadlineExceeded
  | unavailable
  | internal
  | unauthenticated
deriving DecidableEq

/-- `tonic::Status` -/
structure Status where
  code : Code
  message : String
deriving DecidableEq

def PgAppError.code : PgAppError → Code
  | .invalidArgument _ => .invalidArgument
  | .notFound _ => .notFound
  | .conflict _ => .alreadyExists
  | .timeout _ => .deadlineExceeded
  | .databaseUnavailable _ | .serviceUnavailable _ => .unavailable
  | .database _ => .internal

/-- `to_string` -/
def PgAppError.text : PgAppError → String
  | .invalidArgument msg => "invalid argument: " ++ msg
  | .notFound msg => "not found: " ++ msg
  | .conflict msg => "conflict: " ++ msg
  | .timeout msg => "timeout: " ++ msg
  | .databaseUnavailable msg => "database unavailable: " ++ msg
  | .database msg => "database error: " ++ msg
  | .serviceUnavailable msg => "service unavailable: " ++ msg

/-- `impl From<PgAppError> for Status` -/
def Status.ofError (e : PgAppError) : Status := ⟨e.code, e.text⟩

/-- `serde_json::Value`; a number is kept as its text, an object as its fields in key order -/
inductive Json where
  | null
  | bool (b : Bool)
  | num (text : String)
  | str (s : String)
  | arr (items : List Json)
  | obj (fields : List (String × Json))

/-- a TEXT has no character U+0000 -/
def storable (text : String) : Bool := text.toList.all fun c => c.toNat != 0

mutual

/-- nor has a string of a JSONB -/
def Json.storable : Json → Bool
  | .null | .bool _ | .num _ => true
  | .str s => PgApp.storable s
  | .arr items => Json.storableItems items
  | .obj fields => Json.storableFields fields

def Json.storableItems : List Json → Bool
  | [] => true
  | x :: items => x.storable && Json.storableItems items

def Json.storableFields : List (String × Json) → Bool
  | [] => true
  | field :: fields => Json.storableField field && Json.storableFields fields

def Json.storableField : String × Json → Bool
  | (key, value) => PgApp.storable key && value.storable

end

abbrev Time := Int

/-- `n * interval '1 second'` -/
def seconds (n : Int) : Time := n * 1000000

/-- `n * interval '1 day'` -/
def days (n : Int) : Time := n * 86400000000

/-- `Duration::from_millis` -/
def millis (n : Int) : Time := n * 1000

@[simp] theorem seconds_zero : seconds 0 = 0 := rfl

/-- `i32::MAX` -/
def i32Max : Int := 2147483647

/-- `LIMIT limit OFFSET offset` -/
def limitOffset {α : Type} (rows : List α) (limit offset : Int) : Except SqlError (List α) :=
  if limit < 0 then .error .negativeLimit
  else .ok ((rows.drop offset.toNat).take limit.toNat)

/-- a query with these texts among its parameters -/
def withTexts {α : Type} (texts : List String) (rows : Except SqlError α) : Except SqlError α :=
  if texts.all storable then rows else .error .invalidText

section
variable {α : Type} {texts : List String}

theorem withTexts_storable (h : texts.all storable = true) (rows : Except SqlError α) :
    withTexts texts rows = rows := if_pos h

theorem withTexts_invalid (h : texts.all storable = false) (rows : Except SqlError α) :
    withTexts texts rows = .error .invalidText := if_neg (by simp [h])

end

/-- `x as usize` of a signed integer -/
def asUsize (x : Int) : Nat := (x % 18446744073709551616).toNat

/-- an integer brought into the i64 range -/
def wrapI64 (x : Int) : Int :=
  (x + 9223372036854775808) % 18446744073709551616 - 9223372036854775808

/-- `n as i64` of a usize -/
def asI64 (n : Nat) : Int := wrapI64 n

section
variable {S : Type} {R : S → Type} {α : Type}

/-- `.await?` on a query: a database error leaves the function -/
def orFail (r : Except SqlError α) : Interleave.Prog S R PgAppError α :=
  .ret (r.mapError PgAppError.ofSqlx)

@[simp] theorem orFail_ok (a : α) : orFail (S := S) (R := R) (.ok a) = .ret (.ok a) := rfl

end

end PgApp
