import SignalView.Text.Bytes

/-!
# Attribute names

How an attribute of an element reaches the document: most become properties, a few under another
name, `aria-` and `data-` attributes stay markup, and the known event attributes become listeners.
-/

namespace SignalView.Attribute

/-- The property that an attribute is assigned to. -/
def domProperty (name : Bytes) : Bytes :=
  if name == bytes "class" then bytes "className"
  else if name == bytes "for" then bytes "htmlFor"
  else name

/-- The attributes without a property, which are only reachable as markup. -/
def isMarkup (name : Bytes) : Bool :=
  (bytes "aria-").isPrefixOf name || (bytes "data-").isPrefixOf name

/-- The event of a listener attribute: its name without the leading `on`, in lower case. -/
def eventName (name : Bytes) : Bytes :=
  (if 2 < name.length then name.drop 2 else name).map Byte.toLower

/-- The attributes that attach a listener. -/
def events : List String := [
  "onClick", "onDblClick", "onDoubleClick", "onContextMenu", "onAuxClick",
  "onInput", "onChange", "onSubmit", "onReset", "onInvalid", "onSelect",
  "onFocus", "onBlur", "onFocusIn", "onFocusOut",
  "onKeyDown", "onKeyUp", "onKeyPress",
  "onMouseDown", "onMouseUp", "onMouseEnter", "onMouseLeave", "onMouseMove", "onMouseOver",
  "onMouseOut",
  "onPointerDown", "onPointerUp", "onPointerMove", "onPointerEnter", "onPointerLeave",
  "onPointerOver", "onPointerOut", "onPointerCancel",
  "onTouchStart", "onTouchEnd", "onTouchMove", "onTouchCancel",
  "onDrag", "onDragStart", "onDragEnd", "onDragEnter", "onDragLeave", "onDragOver", "onDrop",
  "onScroll", "onWheel", "onResize",
  "onCopy", "onCut", "onPaste",
  "onLoad", "onError", "onAbort",
  "onPlay", "onPause", "onEnded", "onTimeUpdate", "onVolumeChange", "onCanPlay",
  "onAnimationStart", "onAnimationEnd", "onAnimationIteration", "onTransitionEnd",
  "onToggle"]

def isEvent (name : Bytes) : Bool := events.any fun event ↦ bytes event == name

end SignalView.Attribute
