import CacheSeek.Lib.Json
import CacheSeek.Prefix.Keys

namespace CacheSeek.Stores
open CacheSeek.Lib CacheSeek.Prefix

/-- `bytes.decode("utf-8")`; `none` is its UnicodeDecodeError. -/
def decodeUtf8 (b : Bytes) : Option String := String.fromUTF8? ⟨⟨b⟩⟩

/-- `type(value).__name__` of what `json.loads` gives. -/
def pyTypeName : Json → String
  | .null => "NoneType"
  | .bool _ => "bool"
  | .int _ => "int"
  | .float _ => "float"
  | .str _ => "str"
  | .arr _ => "list"
  | .obj _ => "dict"

theorem decodeUtf8_utf8 (s : String) : decodeUtf8 (utf8 s) = some s := by
  have hvalid : s.toByteArray.IsValidUTF8 := s.isValidUTF8
  change String.fromUTF8? s.toByteArray = some s
  rw [String.fromUTF8?, dif_pos hvalid]
  rfl

end CacheSeek.Stores
