import ScriptCompiler.Prelude.Code
import ScriptCompiler.Prelude.Names

/-!
# The text of the prelude

`Prelude.text` is written at the head of every unit. It defines the object of the operations, the
object of the exports and the builtin functions. The operator table is written from `BinaryOp.all`
and the names of `Prelude.Names`, so lowered code and prelude agree on them.
-/

namespace ScriptCompiler.Prelude

open Code (line block attempt)

/-- A block that nothing follows. -/
def plain (head : String) (body : List Code) : Code := block head body ""

/-- Arithmetic that differs from the script's own. -/
def numberHelpers : List Code := [
  plain "function isNumber(value)" [
    line "return typeof value === \"number\" || typeof value === \"boolean\";"],
  plain "function numberFloorDiv(left, right)" [
    line "return Math.floor(left / right);"],
  plain "function numberMod(left, right)" [
    line "return (left % right + right) % right;"],
  plain "function numberPow(left, right)" [
    line "return Math.pow(left, right);"]]

/-- A method that values of a native type have in the source language. -/
structure Method where
  name : String
  code : String

/-- The methods of a native type, which is known by its tag. -/
structure MethodTable where
  typeTag : String
  methods : List Method

/-- The methods of strings, arrays and numbers. -/
def builtinMethods : List MethodTable := [
  ⟨"[object String]", [
    ⟨"find", "String.prototype.indexOf"⟩,
    ⟨"__len__", "function() \x7b return this.length; \x7d"⟩,
    ⟨"__str__", "function() \x7b return \"\" + this; \x7d"⟩,
    ⟨"__add__", "function(right) \x7b return \"\" + this + right; \x7d"⟩]⟩,
  ⟨"[object Array]", [
    ⟨"__len__", "function() \x7b return this.length; \x7d"⟩,
    ⟨"__add__", "function(right) \x7b return this.concat(right); \x7d"⟩,
    ⟨"__str__", "function() \x7b return \"[\" + this.map(repr).join(\", \") + \"]\"; \x7d"⟩,
    ⟨"append", "function(value) \x7b this.push(value); return null; \x7d"⟩]⟩,
  ⟨"[object Number]", [
    ⟨"__str__", "function() \x7b return \"\" + this; \x7d"⟩]⟩]

/-- Texts with a comma after each but the last. -/
def withCommas : List String → List String
  | [] => []
  | [text] => [text]
  | text :: rest => (text ++ ",") :: withCommas rest

/-- The table of one native type. -/
def MethodTable.code (table : MethodTable) : Code :=
  block ("builtinMethods[\"" ++ table.typeTag ++ "\"] =")
    ((withCommas (table.methods.map fun m => m.name ++ ": " ++ m.code)).map line) ";"

/-- Attribute access: the methods of native types come first. -/
def attributeAccess : List Code :=
  line "var builtinMethods = \x7b\x7d;" :: builtinMethods.map MethodTable.code ++ [
    plain "function getattr(value, name)" [
      line "var methods = builtinMethods[Object.prototype.toString.call(value)];",
      plain "if (methods === undefined)" [
        line "return value[name];"],
      plain "if (Object.prototype.hasOwnProperty.call(methods, name))" [
        line "return methods[name].bind(value);"],
      line "var property = value[name];",
      line "return typeof property === \"function\" ? property.bind(value) : property;"],
    plain "function callMethod(receiver, name, argument)" [
      line "return getattr(receiver, name).call(receiver, argument);"]]

/-- Truth: nothing is false, a container by its length, the rest as in the script. -/
def truthiness : List Code := [
  plain "function bool(value)" [
    plain "if (value === null || value === undefined)" [
      line "return false;"],
    line "var length = getattr(value, \"__len__\");",
    plain "if (typeof length === \"function\")" [
      line "return length.call(value) > 0;"],
    line "return !!value;"]]

/-- An operator applied to two numbers. -/
def numeric (op : BinaryOp) : String :=
  match op.onNumbers with
  | .token text => "left " ++ text ++ " right"
  | .helper name => name ++ "(left, right)"

/-- The head of an operator's definition, up to its brace. -/
def operatorHead (op : BinaryOp) : String :=
  "operators." ++ op.tag ++ " = function(left, right)"

/-- The definition of an operator: native on numbers, else the method of the left operand. -/
def operatorCode (op : BinaryOp) : Code :=
  block (operatorHead op) [
    plain "if (isNumber(left) && isNumber(right))" [
      line ("return " ++ numeric op ++ ";")],
    line ("return callMethod(left, \"" ++ op.overload ++ "\", right);")] ";"

/-- The operator table. -/
def operators : List Code :=
  line "var operators = \x7b\x7d;" :: BinaryOp.all.map operatorCode

/-- Modules: the unit that is run first offers the files beside it to all the others. -/
def moduleResolution : List Code := [
  plain "function isRelativeImport(name)" [
    line "return name.indexOf(\".\") === 0;"],
  plain "function canResolve(name)" [
    attempt [
      line "require.resolve(name);",
      line "return true;"] [
      line "return false;"]],
  plain "if (require.main === module)" [
    block "global.$ternResolve = function(name)" [
      line "var siblingName = \"./\" + name;",
      line "return canResolve(siblingName) ? require(siblingName) : undefined;"] ";"],
  plain "function resolveModule(name)" [
    plain "if (!isRelativeImport(name) && global.$ternResolve)" [
      line "var result = global.$ternResolve(name);",
      plain "if (result !== undefined)" [
        line "return result;"]],
    line "return require(name);"]]

/-- The builtin functions, and the quoted form of the strings in a container. -/
def builtins : List Code := [
  plain "function str(value)" [
    plain "if (value === null || value === undefined)" [
      line "return \"None\";"],
    plain "if (typeof value === \"boolean\")" [
      line "return value ? \"True\" : \"False\";"],
    line "var method = getattr(value, \"__str__\");",
    line "return typeof method === \"function\" ? method.call(value) : String(value);"],
  plain "function repr(value)" [
    plain "if (typeof value !== \"string\")" [
      line "return str(value);"],
    line "var escaped = value.replace(/\\\\/g, \"\\\\\\\\\").replace(/\\n/g, \"\\\\n\");",
    plain "if (value.indexOf(\"'\") !== -1 && value.indexOf(\"\\\"\") === -1)" [
      line "return \"\\\"\" + escaped + \"\\\"\";"],
    line "return \"'\" + escaped.replace(/'/g, \"\\\\'\") + \"'\";"],
  plain "function print(value)" [
    line "console.log(str(value));",
    line "return null;"],
  plain "function len(value)" [
    line "return getattr(value, \"__len__\").call(value);"],
  plain "function abs(value)" [
    line "return isNumber(value) ? Math.abs(value) : getattr(value, \"__abs__\").call(value);"]]

/-- What the object of the operations offers. -/
def offered : Code :=
  block "return" [
    line "bool: bool,",
    line "getattr: getattr,",
    line "operators: operators,",
    line "require: resolveModule,",
    line ("builtins: \x7b " ++ ", ".intercalate (builtinNames.map fun n => n ++ ": " ++ n) ++
      " \x7d")] ";"

/-- The whole prelude. -/
def code : List Code :=
  block ("var " ++ objectName ++ " = (function()")
    (numberHelpers ++ attributeAccess ++ truthiness ++ operators ++ moduleResolution ++ builtins ++
      [offered]) ")();" ::
  line ("var " ++ exportsName ++ " = module.exports;") ::
  builtinNames.map fun n => line ("var " ++ n ++ " = " ++ objectName ++ ".builtins." ++ n ++ ";")

/-- The text at the head of every unit. -/
def text : String := textOf code

end ScriptCompiler.Prelude
