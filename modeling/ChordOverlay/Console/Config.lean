import ChordOverlay.Console.Home
import ChordOverlay.Console.LogLevel
import ChordOverlay.Settings.Draft
import ChordOverlay.Storage.Files
import ChordOverlay.Yaml.Decode
import ChordOverlay.Yaml.Writer

/-!
What a member is told before it runs, and the file that keeps it.
-/

namespace ChordOverlay.Console

/-- What is kept in the file of a member. -/
structure Config where
  /-- Its hash is the position of the member. -/
  name : String
  bindIp : Ipv4 := .unspecified
  port : UInt16 := 7000
  /-- A member of the ring to join; without one a new ring is begun. -/
  bootstrap : Option Address := none
  logLevel : LogLevel := .info
  settings : Settings := {}
deriving DecidableEq, Repr

namespace Config

/-- Where the file is when nothing else is said. -/
def defaultPath : String := "~/.chordring/config.yaml"

/-- The settings as fields of the file. -/
def settingsFields (s : Settings) : List (String × String) :=
  [("successor_list_len", toString s.successorListLength),
   ("stabilize_interval_ms", toString s.stabilizeEvery),
   ("check_predecessor_interval_ms", toString s.checkEvery),
   ("rpc_timeout_ms", toString s.patience),
   ("hop_timeout_margin_ms", toString s.hopMargin),
   ("max_hops", toString s.maxHops.toNat),
   ("max_message_len", toString s.maxMessageLength),
   ("external_ip", (s.externalIp.map Ipv4.display).getD "null")]

/-- The text of the file; a bootstrap member that is not given has no field. -/
def toYaml (c : Config) : String :=
  Yaml.write
    ([("name", .text c.name), ("bind_ip", .text c.bindIp.display), ("port", .bare (toString c.port.toNat))]
      ++ (c.bootstrap.map fun addr => ("bootstrap", Yaml.Value.text addr.display)).toList
      ++ [("log_level", .text c.logLevel.name), ("ring", .fields (settingsFields c.settings))])

/-- A configuration being read. -/
structure Draft where
  name : Option String := none
  bindIp : Option Ipv4 := none
  port : Option Nat := none
  bootstrap : Option (Option Address) := none
  logLevel : Option LogLevel := none
  settings : Option Settings := none

/-- A configuration needs a name, an address to listen on, a port and a log level. -/
def Draft.finish (d : Draft) : Option Config := do
  return {
    name := ← d.name
    bindIp := ← d.bindIp
    port := UInt16.ofNat (← d.port)
    bootstrap := d.bootstrap.join
    logLevel := ← d.logLevel
    settings := d.settings.getD {} }

/-- Settings, of which every field may be left out. -/
def decodeSettings (d : Yaml.Document) : Yaml.Decoder Settings :=
  d.record (Settings.Draft.fields d.natBelow (d.optional (d.parsed Ipv4.read))) {} fun s => some (s.finish {})

/-- A configuration; what is left out has its default. -/
def decode (d : Yaml.Document) : Yaml.Decoder Config :=
  d.record
    [.of "name" d.text Draft.name (fun s a => { s with name := some a }),
     .of "bind_ip" (d.parsed Ipv4.read) Draft.bindIp (fun s a => { s with bindIp := some a }),
     .of "port" (d.natBelow UInt16.size) Draft.port (fun s a => { s with port := some a }),
     .of "bootstrap" (d.optional (d.parsed Address.read)) Draft.bootstrap
       (fun s a => { s with bootstrap := some a }),
     .of "log_level" (d.choice LogLevel.ofName?) Draft.logLevel (fun s a => { s with logLevel := some a }),
     .of "ring" (decodeSettings d) Draft.settings (fun s a => { s with settings := some a })]
    {} Draft.finish

/-- Reads a configuration off the text of its file. -/
def ofYaml (text : String) : Except Yaml.Fault Config := Yaml.read decode text

/-- Writes the file, with the folders it needs, and tells where it is. -/
def save (c : Config) (home : Option String) (path : String) : Filing (Except Fault String) := do
  match expandHome home path with
  | .error fault => pure (.error fault)
  | .ok place =>
    match (Path.ofText place).parent? with
    | none => pure (.error .noParent)
    | some around =>
      match ← ensureFolder around with
      | .error fault => pure (.error (.createFile fault))
      | .ok () =>
        match (← Filing.perform (.write (Path.ofText place) c.toYaml) : Except FileFault Unit) with
        | .error fault => pure (.error (.createFile fault))
        | .ok () => pure (.ok place)
where
  ensureFolder (around : Path) : Filing (Except FileFault Unit) := do
    let isFolder : Bool ← Filing.perform (.isFolder around)
    if isFolder then pure (.ok ()) else Filing.makeFolders around.parts.reverse

/-- Reads the file. -/
def load (home : Option String) (path : String) : Filing (Except Fault Config) := do
  match expandHome home path with
  | .error fault => pure (.error fault)
  | .ok place =>
    match (← Filing.perform (.read (Path.ofText place)) : Except FileFault (Option String)) with
    | .error fault => pure (.error (.openFile fault))
    | .ok text =>
      match text.map ofYaml with
      | some (.ok c) => pure (.ok c)
      | _ => pure (.error .badSettings)

end Config

end ChordOverlay.Console
