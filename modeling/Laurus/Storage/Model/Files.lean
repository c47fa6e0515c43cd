import Laurus.Common.Bytes
import Mathlib.Data.List.AList
import Mathlib.Data.List.Basic

/-!
# The storage a component writes to (`storage.rs`)

A `Storage` is its files by name. A write may fail at any point: the
caller sees the error, and the file is left with whatever prefix of the
bytes had arrived, which the `WriteFault` says.
-/

namespace Laurus

/-!
## Errors (`error.rs`), and what else a reader can come to

`LaurusError` keeps the variants the modelled code raises, each with its
text. `Fault` adds the two ends a function over untrusted bytes must
never reach: a panic — an index out of range, an arithmetic overflow —
and a reservation larger than the bytes that could back it. They are
ends of the model's own, so that their absence is a theorem rather than
a reading of the definitions.
-/

/-- `error.rs`, `LaurusError`: the variants the modelled code raises. -/
inductive LaurusError
  | Io (text : String)
  | Index (text : String)
  | Analysis (text : String)
  | Query (text : String)
  | Storage (text : String)
  | InvalidArgument (text : String)
  | SerializationError (text : String)
  | InvalidOperation (text : String)
  | IncompatibleFormat (text : String)
  | WritesStopped (text : String)
  | Json (text : String)
  | Other (text : String)
  deriving DecidableEq, Repr

namespace LaurusError

/-- `LaurusError::index`. -/
def index (text : String) : LaurusError := Index text

/-- `LaurusError::analysis`. -/
def analysis (text : String) : LaurusError := Analysis text

/-- `LaurusError::parse`. -/
def parse (text : String) : LaurusError := Query text

/-- `LaurusError::invalid_argument`. -/
def invalid_argument (text : String) : LaurusError := InvalidArgument text

/-- `LaurusError::storage`. -/
def storage (text : String) : LaurusError := Storage text

/-- `LaurusError::other`. -/
def other (text : String) : LaurusError := Other text

/-- `LaurusError::internal`. -/
def internal (text : String) : LaurusError := Other ("Internal error: " ++ text)

/-- `thiserror`'s `Display` of each variant. -/
def toText : LaurusError → String
  | Io text => "I/O error: " ++ text
  | Index text => "Index error: " ++ text
  | Analysis text => "Analysis error: " ++ text
  | Query text => "Query error: " ++ text
  | Storage text => "Storage error: " ++ text
  | InvalidArgument text => "Invalid argument: " ++ text
  | SerializationError text => "Serialization error: " ++ text
  | InvalidOperation text => "Invalid operation: " ++ text
  | IncompatibleFormat text => "Incompatible format: " ++ text
  | WritesStopped text => "Writes stopped: " ++ text
  | Json text => "JSON error: " ++ text
  | Other text => "Error: " ++ text

end LaurusError

/-- How a computation over untrusted bytes can end other than by a value. -/
inductive Fault
  /-- The error it returns. -/
  | error (e : LaurusError)
  /-- It panics. -/
  | panicked (site : String)
  /-- It reserves room for `count` entries where `available` bytes are left. -/
  | overReserved (count available : ℕ)
  deriving DecidableEq, Repr

/-- The ends other than a returned error. -/
def Fault.IsCrash : Fault → Prop
  | error _ => False
  | panicked _ => True
  | overReserved _ _ => True

/-- `Storage`: the files, by name. -/
abbrev Storage := AList fun _ : String => Bytes

/-- Where writing a new file fails. -/
inductive WriteFault
  /-- Opening it fails; nothing is touched. -/
  | create (e : LaurusError)
  /-- A write, the sync or the close fails with `written` bytes arrived. -/
  | write (e : LaurusError) (written : ℕ)
  deriving DecidableEq, Repr

namespace Storage

/-- `create_output`, the writes and the close: `bytes` become the file, or
the fault's prefix of them does. -/
def create (s : Storage) (name : String) (bytes : Bytes) :
    Option WriteFault → Except LaurusError Unit × Storage
  | none => (.ok (), AList.insert name bytes s)
  | some (WriteFault.create e) => (.error e, s)
  | some (WriteFault.write e written) => (.error e, AList.insert name (bytes.take written) s)

/-- `create_output_append`, the writes and the close. -/
def appendTo (s : Storage) (name : String) (bytes : Bytes) (fault : Option WriteFault) :
    Except LaurusError Unit × Storage :=
  let old := (AList.lookup name s).getD []
  match fault with
  | none => (.ok (), AList.insert name (old ++ bytes) s)
  | some (WriteFault.create e) => (.error e, s)
  | some (WriteFault.write e written) =>
    (.error e, AList.insert name (old ++ bytes.take written) s)

/-- `rename_file`, which replaces what the new name held. -/
def rename (s : Storage) (old_name new_name : String) (fault : Option LaurusError) :
    Except LaurusError Unit × Storage :=
  match fault, AList.lookup old_name s with
  | some e, _ => (.error e, s)
  | none, none => (.error (LaurusError.storage s!"File not found: {old_name}"), s)
  | none, some bytes => (.ok (), AList.insert new_name bytes (AList.erase old_name s))

end Storage

end Laurus
