import StyleFold.Keyword.Basic

/-! The keyword sets of the border, background and font properties. -/
namespace StyleFold

/-- Line styles, with `inherit` as a border may name it in the same place. -/
inductive BorderStyle where
  | none | hidden | dotted | dashed | solid | double | groove | ridge | inset | outset | inherit
deriving DecidableEq

instance : Keyword BorderStyle where
  all := [.none, .hidden, .dotted, .dashed, .solid, .double, .groove, .ridge, .inset, .outset,
    .inherit]
  word
    | .none => "none"
    | .hidden => "hidden"
    | .dotted => "dotted"
    | .dashed => "dashed"
    | .solid => "solid"
    | .double => "double"
    | .groove => "groove"
    | .ridge => "ridge"
    | .inset => "inset"
    | .outset => "outset"
    | .inherit => "inherit"

inductive LineWidth where
  | thin | medium | thick
deriving DecidableEq

instance : Keyword LineWidth where
  all := [.thin, .medium, .thick]
  word
    | .thin => "thin"
    | .medium => "medium"
    | .thick => "thick"

inductive RepeatStyle where
  | horizontally | vertically | both | space | round | never
deriving DecidableEq

instance : Keyword RepeatStyle where
  all := [.horizontally, .vertically, .both, .space, .round, .never]
  word
    | .horizontally => "repeat-x"
    | .vertically => "repeat-y"
    | .both => "repeat"
    | .space => "space"
    | .round => "round"
    | .never => "no-repeat"

inductive Attachment where
  | window | content | element
deriving DecidableEq

instance : Keyword Attachment where
  all := [.window, .content, .element]
  word
    | .window => "fixed"
    | .content => "local"
    | .element => "scroll"

inductive BoxEdge where
  | border | padding | content
deriving DecidableEq

instance : Keyword BoxEdge where
  all := [.border, .padding, .content]
  word
    | .border => "border-box"
    | .padding => "padding-box"
    | .content => "content-box"

inductive PositionWord where
  | left | right | top | bottom | center
deriving DecidableEq

instance : Keyword PositionWord where
  all := [.left, .right, .top, .bottom, .center]
  word
    | .left => "left"
    | .right => "right"
    | .top => "top"
    | .bottom => "bottom"
    | .center => "center"

inductive SizeWord where
  | auto | cover | contain
deriving DecidableEq

instance : Keyword SizeWord where
  all := [.auto, .cover, .contain]
  word
    | .auto => "auto"
    | .cover => "cover"
    | .contain => "contain"

inductive FontStyle where
  | normal | italic | oblique
deriving DecidableEq

instance : Keyword FontStyle where
  all := [.normal, .italic, .oblique]
  word
    | .normal => "normal"
    | .italic => "italic"
    | .oblique => "oblique"

inductive FontVariant where
  | normal | smallCaps
deriving DecidableEq

instance : Keyword FontVariant where
  all := [.normal, .smallCaps]
  word
    | .normal => "normal"
    | .smallCaps => "small-caps"

/-- The named weights. A weight may also be a number. -/
inductive FontWeight where
  | normal | bold | bolder | lighter
deriving DecidableEq

instance : Keyword FontWeight where
  all := [.normal, .bold, .bolder, .lighter]
  word
    | .normal => "normal"
    | .bold => "bold"
    | .bolder => "bolder"
    | .lighter => "lighter"

inductive FontSizeWord where
  | xxSmall | xSmall | small | medium | large | xLarge | xxLarge | smaller | larger
deriving DecidableEq

instance : Keyword FontSizeWord where
  all := [.xxSmall, .xSmall, .small, .medium, .large, .xLarge, .xxLarge, .smaller, .larger]
  word
    | .xxSmall => "xx-small"
    | .xSmall => "x-small"
    | .small => "small"
    | .medium => "medium"
    | .large => "large"
    | .xLarge => "x-large"
    | .xxLarge => "xx-large"
    | .smaller => "smaller"
    | .larger => "larger"

/-- The fonts of the user interface. Each stands for a whole `font` value. -/
inductive SystemFont where
  | caption | icon | menu | messageBox | smallCaption | statusBar
deriving DecidableEq

instance : Keyword SystemFont where
  all := [.caption, .icon, .menu, .messageBox, .smallCaption, .statusBar]
  word
    | .caption => "caption"
    | .icon => "icon"
    | .menu => "menu"
    | .messageBox => "message-box"
    | .smallCaption => "small-caption"
    | .statusBar => "status-bar"

end StyleFold
