import CommitLog.Json.Value
import CommitLog.Text.Utf8

/-!
Events and their headers. A body is opaque octets; headers are values by name.
-/

namespace CommitLog

/-- Values by name, in ascending order of the names. -/
abbrev Headers := Fields

structure Event where
  body : Bytes
  headers : Headers := []

namespace Event

/-- An event without a body is no event to a stream. -/
def isEmpty (event : Event) : Bool := event.body.isEmpty

def withHeader (event : Event) (key : String) (value : Json) : Event :=
  { event with headers := event.headers.insert key value }

end Event
end CommitLog
