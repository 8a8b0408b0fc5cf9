import StyleSheet.Text

namespace StyleSheet.Color.Palette

/-- Colour names that are longer than the shortest code of their colour. -/
def names : List (String × String) :=
  [("aliceblue", "#F0F8FF"), ("antiquewhite", "#FAEBD7"), ("aquamarine", "#7FFFD4"),
    ("black", "#000000"), ("blanchedalmond", "#FFEBCD"), ("blueviolet", "#8A2BE2"),
    ("burlywood", "#DEB887"), ("cadetblue", "#5F9EA0"), ("chartreuse", "#7FFF00"),
    ("chocolate", "#D2691E"), ("cornflowerblue", "#6495ED"), ("cornsilk", "#FFF8DC"),
    ("darkblue", "#00008B"), ("darkcyan", "#008B8B"), ("darkgoldenrod", "#B8860B"),
    ("darkgray", "#A9A9A9"), ("darkgreen", "#006400"), ("darkgrey", "#A9A9A9"),
    ("darkkhaki", "#BDB76B"), ("darkmagenta", "#8B008B"), ("darkolivegreen", "#556B2F"),
    ("darkorange", "#FF8C00"), ("darkorchid", "#9932CC"), ("darksalmon", "#E9967A"),
    ("darkseagreen", "#8FBC8F"), ("darkslateblue", "#483D8B"), ("darkslategray", "#2F4F4F"),
    ("darkslategrey", "#2F4F4F"), ("darkturquoise", "#00CED1"), ("darkviolet", "#9400D3"),
    ("deeppink", "#FF1493"), ("deepskyblue", "#00BFFF"), ("dodgerblue", "#1E90FF"),
    ("firebrick", "#B22222"), ("floralwhite", "#FFFAF0"), ("forestgreen", "#228B22"),
    ("fuchsia", "#FF00FF"), ("gainsboro", "#DCDCDC"), ("ghostwhite", "#F8F8FF"),
    ("goldenrod", "#DAA520"), ("greenyellow", "#ADFF2F"), ("honeydew", "#F0FFF0"),
    ("indianred", "#CD5C5C"), ("lavender", "#E6E6FA"), ("lavenderblush", "#FFF0F5"),
    ("lawngreen", "#7CFC00"), ("lemonchiffon", "#FFFACD"), ("lightblue", "#ADD8E6"),
    ("lightcoral", "#F08080"), ("lightcyan", "#E0FFFF"), ("lightgoldenrodyellow", "#FAFAD2"),
    ("lightgray", "#D3D3D3"), ("lightgreen", "#90EE90"), ("lightgrey", "#D3D3D3"),
    ("lightpink", "#FFB6C1"), ("lightsalmon", "#FFA07A"), ("lightseagreen", "#20B2AA"),
    ("lightskyblue", "#87CEFA"), ("lightslategray", "#778899"), ("lightslategrey", "#778899"),
    ("lightsteelblue", "#B0C4DE"), ("lightyellow", "#FFFFE0"), ("limegreen", "#32CD32"),
    ("magenta", "#FF00FF"), ("mediumaquamarine", "#66CDAA"), ("mediumblue", "#0000CD"),
    ("mediumorchid", "#BA55D3"), ("mediumpurple", "#9370DB"), ("mediumseagreen", "#3CB371"),
    ("mediumslateblue", "#7B68EE"), ("mediumspringgreen", "#00FA9A"),
    ("mediumturquoise", "#48D1CC"), ("mediumvioletred", "#C71585"), ("midnightblue", "#191970"),
    ("mintcream", "#F5FFFA"), ("mistyrose", "#FFE4E1"), ("moccasin", "#FFE4B5"),
    ("navajowhite", "#FFDEAD"), ("olivedrab", "#6B8E23"), ("orangered", "#FF4500"),
    ("palegoldenrod", "#EEE8AA"), ("palegreen", "#98FB98"), ("paleturquoise", "#AFEEEE"),
    ("palevioletred", "#DB7093"), ("papayawhip", "#FFEFD5"), ("peachpuff", "#FFDAB9"),
    ("powderblue", "#B0E0E6"), ("rosybrown", "#BC8F8F"), ("royalblue", "#4169E1"),
    ("saddlebrown", "#8B4513"), ("sandybrown", "#F4A460"), ("seagreen", "#2E8B57"),
    ("seashell", "#FFF5EE"), ("slateblue", "#6A5ACD"), ("slategray", "#708090"),
    ("slategrey", "#708090"), ("springgreen", "#00FF7F"), ("steelblue", "#4682B4"),
    ("turquoise", "#40E0D0"), ("white", "#FFFFFF"), ("whitesmoke", "#F5F5F5"),
    ("yellow", "#FFFF00"), ("yellowgreen", "#9ACD32")]

/-- Codes of colours whose names are shorter. -/
def shortNames : List (String × String) :=
  [("#000080", "navy"), ("#008000", "green"), ("#008080", "teal"), ("#4b0082", "indigo"),
    ("#800000", "maroon"), ("#800080", "purple"), ("#808000", "olive"), ("#808080", "gray"),
    ("#a0522d", "sienna"), ("#a52a2a", "brown"), ("#c0c0c0", "silver"), ("#cd853f", "peru"),
    ("#d2b48c", "tan"), ("#da70d6", "orchid"), ("#dda0dd", "plum"), ("#ee82ee", "violet"),
    ("#f0e68c", "khaki"), ("#f0ffff", "azure"), ("#f5deb3", "wheat"), ("#f5f5dc", "beige"),
    ("#fa8072", "salmon"), ("#faf0e6", "linen"), ("#ff0000", "red"), ("#ff6347", "tomato"),
    ("#ff7f50", "coral"), ("#ffa500", "orange"), ("#ffc0cb", "pink"), ("#ffd700", "gold"),
    ("#ffe4c4", "bisque"), ("#fffafa", "snow"), ("#fffff0", "ivory")]

def toTexts (entries : List (String × String)) : List (Text × Text) :=
  entries.map fun (key, value) => (key.toList, value.toList)

end StyleSheet.Color.Palette
