namespace WiredViews

def escapeChar : Char → List Char
  | '&' => ['&', 'a', 'm', 'p', ';']
  | '<' => ['&', 'l', 't', ';']
  | '>' => ['&', 'g', 't', ';']
  | '\'' => ['&', '#', '3', '9', ';']
  | '"' => ['&', '#', '3', '4', ';']
  | c => [c]

def escapeMarkup (text : List Char) : List Char :=
  text.flatMap escapeChar

end WiredViews
