/-!
# Builtin functions

The functions that every script can call. Code names them by their place in `Builtin.all`, so new
ones are added at the end.
-/

namespace ScriptEngine

inductive Builtin where
  | len
  | copy
  | append
  | delete
  | splice
  | string
  | int
  | bool
  | float
  | char
  | bytes
  | time
  | isInt
  | isFloat
  | isString
  | isBool
  | isChar
  | isBytes
  | isArray
  | isFrozenArray
  | isMap
  | isFrozenMap
  | isIterable
  | isTime
  | isError
  | isUndefined
  | isFunction
  | isCallable
  | typeName
  | format
  | range
  deriving Repr, DecidableEq, Inhabited

namespace Builtin

/-- Every builtin function, in the order by which code names them. -/
def all : Array Builtin :=
  #[.len, .copy, .append, .delete, .splice, .string, .int, .bool, .float, .char, .bytes, .time,
    .isInt, .isFloat, .isString, .isBool, .isChar, .isBytes, .isArray, .isFrozenArray, .isMap,
    .isFrozenMap, .isIterable, .isTime, .isError, .isUndefined, .isFunction, .isCallable,
    .typeName, .format, .range]

def name : Builtin → String
  | .len => "len"
  | .copy => "copy"
  | .append => "append"
  | .delete => "delete"
  | .splice => "splice"
  | .string => "string"
  | .int => "int"
  | .bool => "bool"
  | .float => "float"
  | .char => "char"
  | .bytes => "bytes"
  | .time => "time"
  | .isInt => "is_int"
  | .isFloat => "is_float"
  | .isString => "is_string"
  | .isBool => "is_bool"
  | .isChar => "is_char"
  | .isBytes => "is_bytes"
  | .isArray => "is_array"
  | .isFrozenArray => "is_immutable_array"
  | .isMap => "is_map"
  | .isFrozenMap => "is_immutable_map"
  | .isIterable => "is_iterable"
  | .isTime => "is_time"
  | .isError => "is_error"
  | .isUndefined => "is_undefined"
  | .isFunction => "is_function"
  | .isCallable => "is_callable"
  | .typeName => "type_name"
  | .format => "format"
  | .range => "range"

def index (b : Builtin) : Nat := b.ctorIdx

def ofName? (name : String) : Option Builtin := all.find? (·.name == name)

@[simp]
theorem all_index (b : Builtin) : all[b.index]? = some b := by
  cases b <;> rfl

end Builtin

end ScriptEngine
