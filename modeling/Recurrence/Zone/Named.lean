/-
# Zones by name

Which zones there are, and what their clocks show, is for a time zone database to
say, which knows them by name. Text may put the name between double quotes and a
slash before it. The program comes with a database of a few zones; what is read
with one is read in the same way with any other.

Key definitions: `NamedZone`, `Database`, `Database.find`, `Database.known`.
-/
import Recurrence.Fault
import Recurrence.Text.Blank
import Recurrence.Zone.Basic
import Recurrence.Zone.Tables

namespace Recurrence

/-- A name of a time zone database and the transitions of the zone. -/
structure NamedZone where
  name : String
  table : TransitionTable
  deriving DecidableEq

/-- The conversions of the zone. -/
def NamedZone.zone (named : NamedZone) : Zone :=
  named.table.zone

/-- A time zone database: the zones that it knows, by their exact names. -/
structure Database where
  lookup : String → Option NamedZone

namespace Database

/-! ### Names in a text -/

/-- The text without the given characters at either end. -/
def strip (c : Char) (text : List Char) : List Char :=
  ((text.dropWhile (· == c)).reverse.dropWhile (· == c)).reverse

/-- The name that a text stands for. -/
def bareName (text : String) : String :=
  String.ofList ((strip '"' (Text.trimChars text.toList)).dropWhile (· == '/'))

/-- The zone that a text names. -/
def find (database : Database) (text : String) : Except Malformed NamedZone :=
  match database.lookup (bareName text) with
  | some named => .ok named
  | none => .error (Fault.zone text).malformed

/-! ### The zones that the program comes with -/

/-- The database of some zones. -/
def ofList (zones : List NamedZone) : Database :=
  ⟨fun name => zones.find? (·.name == name)⟩

/-- The database that the program comes with. -/
def known : Database :=
  .ofList
    [⟨"UTC", ⟨0, []⟩⟩,
     ⟨"Etc/GMT+5", ⟨-18000, []⟩⟩,
     ⟨"America/New_York", .newYork⟩,
     ⟨"America/Los_Angeles", .losAngeles⟩,
     ⟨"US/Pacific", .losAngeles⟩,
     ⟨"Europe/London", .london⟩,
     ⟨"Asia/Tokyo", .tokyo⟩,
     ⟨"Asia/Kolkata", .kolkata⟩,
     ⟨"Australia/Lord_Howe", .lordHowe⟩,
     ⟨"Pacific/Apia", .apia⟩,
     ⟨"America/Sao_Paulo", .saoPaulo⟩]

end Database

/-- The zone that a text names in the database that the program comes with. -/
def NamedZone.find (text : String) : Except Malformed NamedZone :=
  Database.known.find text

end Recurrence
