namespace Backslice.Text

def isBlank (c : Char) : Bool :=
  let n := c.toNat
  (0x09 ≤ n && n ≤ 0x0D) || (0x1C ≤ n && n ≤ 0x20) || n == 0x85 || n == 0xA0 || n == 0x1680 ||
    (0x2000 ≤ n && n ≤ 0x200A) || n == 0x2028 || n == 0x2029 || n == 0x202F || n == 0x205F ||
    n == 0x3000

def trimStart (cs : List Char) : List Char := cs.dropWhile isBlank

def trimEnd (cs : List Char) : List Char := (trimStart cs.reverse).reverse

def trim (cs : List Char) : List Char := trimEnd (trimStart cs)

def collapse (inRun : Bool) : List Char → List Char
  | [] => []
  | c :: cs =>
    if isBlank c then
      if inRun then collapse true cs else ' ' :: collapse true cs
    else c :: collapse false cs

def dropSemicolon (cs : List Char) : List Char :=
  match cs.reverse with
  | ';' :: rest => (trimStart rest).reverse
  | _ => cs

def normalize (s : String) : String := String.ofList (collapse false (trim s.toList))

def clean (s : String) : String := String.ofList (dropSemicolon (collapse false (trim s.toList)))

end Backslice.Text
