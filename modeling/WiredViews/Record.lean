import WiredViews.Table
import WiredViews.Value

namespace WiredViews

-- Values by name: of variables, of arguments or of output fields. A name that is
-- missing reads as null.
abbrev Record := Table String Value

def Record.read (record : Record) (name : String) : Value :=
  record.getD name .null

end WiredViews
