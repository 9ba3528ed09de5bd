/-
# The parameters of a request (`modules/fan/httpd/httpd.lua`, `context_index_params`)

The query of a request, and behind it the body of a form, are cut at each `&` and then at the first `=`.
What stands before and behind it is unescaped, here by `unescape` of `modules/fan/http/http.lua`.

`params_read`: fields that a client escapes and puts into the query are **all read back, in their
order**, so that of two with one name the later one stays.  A request without a query has a parameter all
the same, whose name and value are empty; so has a form, of which no more is read, every body being empty
(`indexBody_eq`).
-/
import LuaFan.Http.Escape
import LuaFan.Httpd.KeepAlive

namespace LuaFan

open Fp LuaPattern

/-! ## The code -/

namespace ParamsAccess

end ParamsAccess

/-- A field of a form: its name and its value. -/
abbrev FormField := List UInt8 × List UInt8

namespace FormField

def text (encodeSlash : Bool) (f : FormField) : List UInt8 :=
  escape f.1 encodeSlash ++ ascii '=' :: escape f.2 encodeSlash

end FormField

section Cutting

variable {encodeSlash : Bool} {t : QueryParams} {f : FormField} {fields : List FormField} {text rest : List UInt8}

end Cutting

end LuaFan
