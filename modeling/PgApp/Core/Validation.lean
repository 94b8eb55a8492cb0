import PgApp.Core.Base

/-!
# Argument checks (`validation.rs`)

Each check is the source's, with its message.  `len()` of a Rust string counts bytes
(`String.utf8ByteSize`); the two third-party functions of the file, `serde_json::from_str` and
the SHA-256 behind `hash_key`, are parameters of the stores that use them.
-/

namespace PgApp

def maxIdentifierLen : Nat := 128
def maxCacheKeyLen : Nat := 1024
def maxConfigKeyLen : Nat := 256

def validateIdentifier (field value : String) : PgAppResult Unit :=
  if value.isEmpty then
    .error (.invalidArgument s!"{field} must not be empty")
  else if value.utf8ByteSize > maxIdentifierLen then
    .error (.invalidArgument s!"{field} exceeds {maxIdentifierLen} bytes")
  else
    match value.toList with
    | [] => .error (.invalidArgument s!"{field} must not be empty")
    | first :: chars =>
      if !(first.isAlpha || first == '_') then
        .error (.invalidArgument s!"{field} must start with an ASCII letter or underscore")
      else if !(chars.all fun ch => ch.isAlphanum || ch == '_' || ch == '-') then
        .error (.invalidArgument
          s!"{field} may only contain ASCII letters, digits, underscore, or dash")
      else .ok ()

def validateNamespace (ns : String) : PgAppResult Unit := validateIdentifier "namespace" ns

def validateQueueName (queueName : String) : PgAppResult Unit :=
  validateIdentifier "queue_name" queueName

def validateConfigComponent (field value : String) : PgAppResult Unit :=
  validateIdentifier field value

def validateConfigKey (key : String) : PgAppResult Unit :=
  if key.utf8ByteSize > maxConfigKeyLen then
    .error (.invalidArgument s!"config key exceeds {maxConfigKeyLen} bytes")
  else validateIdentifier "config_key" key

def validateCacheKey (key : String) : PgAppResult Unit :=
  if key.isEmpty then
    .error (.invalidArgument "cache key must not be empty")
  else if key.utf8ByteSize > maxCacheKeyLen then
    .error (.invalidArgument s!"cache key exceeds {maxCacheKeyLen} bytes")
  else .ok ()

def validateQuantity (quantity max : Int) : PgAppResult Int :=
  if quantity ≤ 0 then
    .error (.invalidArgument "quantity must be greater than zero")
  else if quantity > max then
    .error (.invalidArgument s!"quantity must be less than or equal to {max}")
  else .ok quantity

def validateNonNegativeSeconds (field : String) (seconds : Int) : PgAppResult Int :=
  if seconds < 0 then .error (.invalidArgument s!"{field} must not be negative") else .ok seconds

/-- `char::is_whitespace`: the Unicode White_Space property -/
def isWhitespace (c : Char) : Bool :=
  let n := c.toNat
  (9 ≤ n && n ≤ 13) || n == 0x20 || n == 0x85 || n == 0xA0 || n == 0x1680 ||
    (0x2000 ≤ n && n ≤ 0x200A) || n == 0x2028 || n == 0x2029 || n == 0x202F || n == 0x205F ||
    n == 0x3000

/-- `s.trim().is_empty()` -/
def blank (s : String) : Bool := s.toList.all isWhitespace

end PgApp
