import EmbedScript.Error

/-!
Native functions: host functions whose bodies are operations of the stack interface. The
error constructors are installed as globals; the rest form the catalogue an embedder binds
under names of its choice, as plain functions or as methods of a suite.
-/

namespace EmbedScript

/-- A native function body. -/
inductive Native where
  /-- Builds an error of the kind from the first argument as its message. -/
  | errorConstructor (kind : ErrorKind)
  | sum | add2 | hi | inc | dec | fail | failMsg | rethrow | num0 | int0 | str0 | bool0
  | deep | underflow | notObject | retn | argc | args | this | thisTag | collect | eval
  | peval | call | pcall | makePoint | makeStr | pointSum | strOf | handle | registryLen
  | setGlobal | getProp | errorObj | setTop | finalize | globalTag | toStr | toNum
  | length0 | lookupRaw | noop
  deriving DecidableEq, Repr

namespace Native

/-- The catalogue by name. -/
def catalogue : List (String × Native) :=
  [("sum", .sum), ("add2", .add2), ("hi", .hi), ("inc", .inc), ("dec", .dec),
    ("fail", .fail), ("fail_msg", .failMsg), ("rethrow", .rethrow), ("num0", .num0),
    ("int0", .int0), ("str0", .str0), ("bool0", .bool0), ("deep", .deep),
    ("underflow", .underflow), ("not_object", .notObject), ("retn", .retn), ("argc", .argc),
    ("args", .args), ("this", .this), ("this_tag", .thisTag), ("collect", .collect),
    ("eval", .eval), ("peval", .peval), ("call", .call), ("pcall", .pcall),
    ("make_point", .makePoint), ("make_str", .makeStr), ("point_sum", .pointSum),
    ("str_of", .strOf), ("handle", .handle), ("registry_len", .registryLen),
    ("set_global", .setGlobal), ("get_prop", .getProp), ("error_obj", .errorObj),
    ("set_top", .setTop), ("finalize", .finalize), ("global_tag", .globalTag),
    ("to_str", .toStr), ("to_num", .toNum), ("length0", .length0),
    ("lookup_raw", .lookupRaw), ("noop", .noop)]

/-- The catalogue function with this name. -/
def ofName? (s : String) : Option Native :=
  (catalogue.find? (·.1 == s)).map (·.2)

end Native

end EmbedScript
