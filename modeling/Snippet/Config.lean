import Snippet.Json.Form

/-!
The configuration file: a JSON record in which every part may be left out.
-/

namespace Snippet

structure ServerConfig where
  bindAddress : Option String := none
  bindPort : Option Nat := none
deriving Repr, DecidableEq

structure EngineConfig where
  timeLimitMs : Nat := 5000
  /-- How long an answer is held back at least. -/
  responseDelayMs : Nat := 100
deriving Repr, DecidableEq

structure Config where
  server : ServerConfig := {}
  engine : EngineConfig := {}
deriving Repr, DecidableEq

def ServerConfig.ofForm? (form : Json.Form) : Option ServerConfig := do
  let fields ← form.fields? [["bind_address"], ["bind_port"]]
  let bindAddress ← fields.nullable? 0 Json.Form.string?
  let bindPort ← fields.nullable? 1 (Json.Form.natural? 16)
  pure { bindAddress, bindPort }

def EngineConfig.ofForm? (form : Json.Form) : Option EngineConfig := do
  let fields ← form.fields? [["time_limit_ms"], ["response_delay_ms"]]
  let default : EngineConfig := {}
  let timeLimitMs ← fields.withDefault? 0 default.timeLimitMs (Json.Form.natural? 64)
  let responseDelayMs ← fields.withDefault? 1 default.responseDelayMs (Json.Form.natural? 64)
  pure { timeLimitMs, responseDelayMs }

def Config.ofForm? (form : Json.Form) : Option Config := do
  let fields ← form.fields? [["server"], ["engine"]]
  let server ← fields.withDefault? 0 {} ServerConfig.ofForm?
  let engine ← fields.withDefault? 1 {} EngineConfig.ofForm?
  pure { server, engine }

def Config.ofText? (text : String) : Option Config :=
  (Json.Form.ofText? text.toList).bind Config.ofForm?

end Snippet
